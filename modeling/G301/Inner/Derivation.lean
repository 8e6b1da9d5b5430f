import G301.Inner.Execution
import G301.Inner.Labels

/-! # Keys and the epochs they come from

`Session.createLogged` is the creation of a session with a log of all its calls of SHA-384 and
HKDF (`Session.createLogged_result`).

* `keys_separate`: if none of the calls collide, key and IV of a traffic context determine the
  exporter material, the application context, the channel and the direction.  The ten contexts
  of a session have different keys, and sessions of different epochs have none in common.
* `creation_outcomes`: a context of the wrong length is refused before the first call; after
  that a creation fails exactly if a call does, and as `Crypto`.

SHA-384 and HKDF shorten their inputs, so that they are not injective; `CollisionFree` is about
the calls of a log, with their answers. -/

namespace G301.Inner

open ByteString

/-- A call of SHA-384 or of one of the two functions of HKDF. -/
inductive HashCall where
  | sha384 (input : Bytes)
  | extract (ikm salt : Bytes)
  | expand (call : ExpandCall)
deriving DecidableEq, Repr

def OpenSsl.answer (ssl : OpenSsl) : HashCall → Option Bytes
  | .sha384 input => (ssl.sha384 input).map Vector.toList
  | .extract ikm salt => (ssl.hkdfExtract ikm salt).map Vector.toList
  | .expand call => (ssl.hkdfExpand call.secret call.info call.len).map Vector.toList

/-! ### Creation with its calls -/

section logged
variable (ssl : OpenSsl)

def sha384Logged (input : Bytes) : Logged HashCall Error (Vector UInt8 hashLen) :=
  Logged.request (.sha384 input) (sha384 ssl input)

def CanonicalApplicationContext.fromBytesLogged (applicationContext : Bytes) :
    Logged HashCall Error CanonicalApplicationContext := do
  if applicationContext = [] ∨ 255 < applicationContext.length then
    Logged.lift (.error .invalidContext)
  else do
    let manifestHash ← sha384Logged ssl (← Logged.lift manifest)
    let contextHash ←
      sha384Logged ssl (← Logged.lift (contextHashInput manifestHash applicationContext))
    return ⟨manifestHash, contextHash⟩

def deriveRootLogged (exporterMaterial : Vector UInt8 exporterMaterialLen)
    (context : CanonicalApplicationContext) : Logged HashCall Error RootDerivation := do
  let salt ← sha384Logged ssl (← Logged.lift (saltInput context.manifestHash context.contextHash))
  let prk ← Logged.request (.extract exporterMaterial.toList salt.toList)
    ((ssl.hkdfExtract exporterMaterial.toList salt.toList).elim (.error .crypto) .ok)
  return ⟨context.manifestHash, context.contextHash, prk⟩

def deriveTrafficLogged (root : RootDerivation) :
    Logged HashCall Error (Fin materialCount → TrafficKey) :=
  (Channel.all.product Direction.all).foldlM
    (fun traffic label => do
      let material ← (deriveTrafficKeyLogged ssl root label.1 label.2).mapCalls HashCall.expand
      return Function.update traffic (materialIndex label.1 label.2) material)
    (fun _ => TrafficKey.zeroed)

/-- `fromExporterEpoch` with its calls of SHA-384 and HKDF. -/
def Session.createLogged (fetched : Option (ℕ × ℕ)) (role : EndpointRole)
    (exporterMaterial : Vector UInt8 exporterMaterialLen) (applicationContext : Bytes) :
    Logged HashCall Error Session := do
  let context ← CanonicalApplicationContext.fromBytesLogged ssl applicationContext
  let root ← deriveRootLogged ssl exporterMaterial context
  let traffic ← deriveTrafficLogged ssl root
  Logged.lift (Session.aes256Gcm fetched)
  return Session.ofSecrets role ⟨root.manifestHash, root.contextHash, traffic⟩

end logged

section results
variable {ssl : OpenSsl}

theorem fromBytesLogged_result (applicationContext : Bytes) :
    (CanonicalApplicationContext.fromBytesLogged ssl applicationContext).result =
      CanonicalApplicationContext.fromBytes ssl applicationContext := by
  unfold CanonicalApplicationContext.fromBytesLogged CanonicalApplicationContext.fromBytes
  split
  · rfl
  · simp [sha384Logged, manifestHash, buildContextHash]

theorem deriveRootLogged_result (exporterMaterial : Vector UInt8 exporterMaterialLen)
    (context : CanonicalApplicationContext) :
    (deriveRootLogged ssl exporterMaterial context).result =
      deriveRootWithContext ssl exporterMaterial context := by
  simp [deriveRootLogged, deriveRootWithContext, sha384Logged, buildSalt]

/-- The log leaves the creation as it is. -/
theorem Session.createLogged_result (fetched : Option (ℕ × ℕ)) (role : EndpointRole)
    (exporterMaterial : Vector UInt8 exporterMaterialLen) (applicationContext : Bytes) :
    (createLogged ssl fetched role exporterMaterial applicationContext).result =
      fromExporterEpoch ssl fetched role exporterMaterial applicationContext := by
  simp [createLogged, fromExporterEpoch, fromExporterEpochWithContext, deriveSecretsWithContext,
    fromBytesLogged_result, deriveRootLogged_result, deriveTrafficLogged, Logged.result_foldlM,
    deriveTrafficKeyLogged_result]

end results

/-! ### Collisions -/

/-- Calls with their answers. -/
abbrev HashLog := List (HashCall × Option Bytes)

def OpenSsl.answered (ssl : OpenSsl) (calls : List HashCall) : HashLog :=
  calls.map fun call => (call, ssl.answer call)

/-- No function gave two different inputs of the log one answer. -/
structure CollisionFree (log : HashLog) : Prop where
  sha384_inj : ∀ x y out, (.sha384 x, some out) ∈ log → (.sha384 y, some out) ∈ log → x = y
  extract_inj : ∀ ikm salt ikm' salt' out, (.extract ikm salt, some out) ∈ log →
    (.extract ikm' salt', some out) ∈ log → ikm = ikm' ∧ salt = salt'
  expand_inj : ∀ x y out, (.expand x, some out) ∈ log → (.expand y, some out) ∈ log → x = y

theorem collisionFree_of_injOn {log : HashLog}
    (h : ∀ p ∈ log, ∀ q ∈ log, p.2.isSome → p.2 = q.2 → p.1 = q.1) : CollisionFree log := by
  constructor
  · intro x y out hx hy
    exact HashCall.sha384.inj (h _ hx _ hy rfl rfl)
  · intro ikm salt ikm' salt' out hx hy
    exact HashCall.extract.inj (h _ hx _ hy rfl rfl)
  · intro x y out hx hy
    exact HashCall.expand.inj (h _ hx _ hy rfl rfl)

theorem CollisionFree.mono {log log' : HashLog} (hsub : log ⊆ log') (h : CollisionFree log') :
    CollisionFree log :=
  ⟨fun x y out hx hy => h.sha384_inj x y out (hsub hx) (hsub hy),
    fun ikm salt ikm' salt' out hx hy => h.extract_inj ikm salt ikm' salt' out (hsub hx) (hsub hy),
    fun x y out hx hy => h.expand_inj x y out (hsub hx) (hsub hy)⟩

/-! ### What stands behind a session -/

/-- The calls of the log through which the secrets come from exporter material and application
context. -/
structure Derived (log : HashLog) (exporterMaterial : Vector UInt8 exporterMaterialLen)
    (applicationContext : Bytes) (secrets : DerivedSecrets) (salt prk : Vector UInt8 hashLen)
    (trafficSecret : Channel → Direction → Vector UInt8 hashLen) : Prop where
  length_le : applicationContext.length ≤ 255
  context_mem : (.sha384 (contextHashBytes secrets.manifestHash applicationContext),
    some secrets.contextHash.toList) ∈ log
  salt_mem : (.sha384 (saltBytes secrets.manifestHash secrets.contextHash), some salt.toList) ∈ log
  prk_mem : (.extract exporterMaterial.toList salt.toList, some prk.toList) ∈ log
  traffic_mem : ∀ c d, (.expand ⟨prk.toList,
    infoBytes (ascii "traffic") secrets.manifestHash secrets.contextHash c d, hashLen⟩,
      some (trafficSecret c d).toList) ∈ log
  key_mem : ∀ c d, (.expand ⟨(trafficSecret c d).toList,
    infoBytes (ascii "key") secrets.manifestHash secrets.contextHash c d, keyLen⟩,
      some (secrets.traffic (materialIndex c d)).key.toList) ∈ log
  iv_mem : ∀ c d, (.expand ⟨(trafficSecret c d).toList,
    infoBytes (ascii "iv") secrets.manifestHash secrets.contextHash c d, ivLen⟩,
      some (secrets.traffic (materialIndex c d)).iv.toList) ∈ log

section derived
variable {log : HashLog} {exporterMaterial exporterMaterial' : Vector UInt8 exporterMaterialLen}
variable {applicationContext applicationContext' : Bytes} {secrets secrets' : DerivedSecrets}
variable {salt salt' prk prk' : Vector UInt8 hashLen}
variable {trafficSecret trafficSecret' : Channel → Direction → Vector UInt8 hashLen}
variable {c c' : Channel} {d d' : Direction}

/-- The context hash determines the application context. -/
theorem Derived.context_inj (hfree : CollisionFree log)
    (h : Derived log exporterMaterial applicationContext secrets salt prk trafficSecret)
    (h' : Derived log exporterMaterial' applicationContext' secrets' salt' prk' trafficSecret')
    (heq : secrets.contextHash = secrets'.contextHash) :
    secrets.manifestHash = secrets'.manifestHash ∧ applicationContext = applicationContext' := by
  have hmem := h'.context_mem
  rw [← heq] at hmem
  have hbytes := hfree.sha384_inj _ _ _ h.context_mem hmem
  have hle := h.length_le
  have hle' := h'.length_le
  exact contextHashBytes_inj (by omega) (by omega) hbytes

/-- The traffic secret of a channel and direction determines everything before it. -/
theorem Derived.trafficSecret_inj (hfree : CollisionFree log)
    (h : Derived log exporterMaterial applicationContext secrets salt prk trafficSecret)
    (h' : Derived log exporterMaterial' applicationContext' secrets' salt' prk' trafficSecret')
    (heq : trafficSecret c d = trafficSecret' c' d') :
    exporterMaterial = exporterMaterial' ∧ applicationContext = applicationContext' ∧
      c = c' ∧ d = d' := by
  have hmem := h'.traffic_mem c' d'
  rw [← heq] at hmem
  obtain ⟨hprk, hinfo, -⟩ := ExpandCall.mk.inj (hfree.expand_inj _ _ _ (h.traffic_mem c d) hmem)
  obtain ⟨-, -, hcontext, hc, hd⟩ := infoBytes_inj (by decide) (by decide) hinfo
  have hmem := h'.prk_mem
  rw [← hprk] at hmem
  obtain ⟨hikm, -⟩ := hfree.extract_inj _ _ _ _ _ h.prk_mem hmem
  exact ⟨Vector.toList_inj.mp hikm, (h.context_inj hfree h' hcontext).2, hc, hd⟩

/-- The output of one of the two calls under a traffic secret determines everything before it. -/
theorem Derived.output_inj (hfree : CollisionFree log)
    (h : Derived log exporterMaterial applicationContext secrets salt prk trafficSecret)
    (h' : Derived log exporterMaterial' applicationContext' secrets' salt' prk' trafficSecret')
    {out info info' : Bytes} {len : ℕ}
    (hmem : (.expand ⟨(trafficSecret c d).toList, info, len⟩, some out) ∈ log)
    (hmem' : (.expand ⟨(trafficSecret' c' d').toList, info', len⟩, some out) ∈ log) :
    exporterMaterial = exporterMaterial' ∧ applicationContext = applicationContext' ∧
      c = c' ∧ d = d' := by
  obtain ⟨hsecret, -, -⟩ := ExpandCall.mk.inj (hfree.expand_inj _ _ _ hmem hmem')
  exact h.trafficSecret_inj hfree h' (Vector.toList_inj.mp hsecret)

end derived

/-! ### The calls of a creation -/

/-- The call and its answer are in the log. -/
def OpenSsl.Asked (ssl : OpenSsl) (log : HashLog) (call : HashCall) : Prop :=
  (call, ssl.answer call) ∈ log

section asked
variable {ssl : OpenSsl} {log : HashLog}

theorem ran_sha384Logged {input : Bytes} {digest : Vector UInt8 hashLen}
    (h : (sha384Logged ssl input).Ran (ssl.Asked log) digest) :
    (.sha384 input, some digest.toList) ∈ log := by
  obtain ⟨hmem, hdigest⟩ := Logged.ran_request.mp h
  rw [sha384_eq_ok] at hdigest
  simpa [OpenSsl.Asked, OpenSsl.answer, hdigest] using hmem

theorem ran_fromBytesLogged {applicationContext : Bytes} {context : CanonicalApplicationContext}
    (h : (CanonicalApplicationContext.fromBytesLogged ssl applicationContext).Ran (ssl.Asked log)
      context) :
    applicationContext.length ≤ 255 ∧
      (.sha384 (contextHashBytes context.manifestHash applicationContext),
        some context.contextHash.toList) ∈ log := by
  unfold CanonicalApplicationContext.fromBytesLogged at h
  split at h
  · cases Logged.ran_lift.mp h
  rename_i hlength
  have hle : applicationContext.length ≤ 255 := by
    rw [not_or] at hlength
    omega
  refine ⟨hle, ?_⟩
  obtain ⟨framed, -, h⟩ := Logged.ran_bind.mp h
  obtain ⟨manifestHash, -, h⟩ := Logged.ran_bind.mp h
  obtain ⟨input, hinput, h⟩ := Logged.ran_bind.mp h
  obtain ⟨contextHash, hhash, h⟩ := Logged.ran_bind.mp h
  obtain rfl := Logged.ran_pure.mp h
  rw [Logged.ran_lift, contextHashInput_eq _ (by omega)] at hinput
  obtain rfl := Except.ok.inj hinput
  exact ran_sha384Logged hhash

theorem ran_deriveRootLogged {exporterMaterial : Vector UInt8 exporterMaterialLen}
    {context : CanonicalApplicationContext} {root : RootDerivation}
    (h : (deriveRootLogged ssl exporterMaterial context).Ran (ssl.Asked log) root) :
    root.manifestHash = context.manifestHash ∧ root.contextHash = context.contextHash ∧
      ∃ salt : Vector UInt8 hashLen,
        (.sha384 (saltBytes context.manifestHash context.contextHash), some salt.toList) ∈ log ∧
        (.extract exporterMaterial.toList salt.toList, some root.prk.toList) ∈ log := by
  unfold deriveRootLogged at h
  obtain ⟨input, hinput, h⟩ := Logged.ran_bind.mp h
  obtain ⟨salt, hsalt, h⟩ := Logged.ran_bind.mp h
  obtain ⟨prk, hprk, h⟩ := Logged.ran_bind.mp h
  obtain rfl := Logged.ran_pure.mp h
  rw [Logged.ran_lift, saltInput_eq] at hinput
  obtain rfl := Except.ok.inj hinput
  refine ⟨rfl, rfl, salt, ran_sha384Logged hsalt, ?_⟩
  obtain ⟨hmem, hprk⟩ := Logged.ran_request.mp hprk
  unfold OpenSsl.Asked OpenSsl.answer at hmem
  cases hanswer : ssl.hkdfExtract exporterMaterial.toList salt.toList with
  | none =>
      rw [hanswer] at hprk
      cases hprk
  | some out =>
      rw [hanswer] at hprk
      obtain rfl := Except.ok.inj hprk
      simpa [hanswer] using hmem

theorem ran_expandInfoLogged {root : RootDerivation} {secret purpose : Bytes} {c : Channel}
    {d : Direction} {len : ℕ} {out : Vector UInt8 len} (hpurpose : purpose.length ≤ 255)
    (h : (expandInfoLogged ssl root secret purpose c d len).Ran
      (fun call => ssl.Asked log (.expand call)) out) :
    (.expand ⟨secret, infoBytes purpose root.manifestHash root.contextHash c d, len⟩,
      some out.toList) ∈ log := by
  unfold expandInfoLogged at h
  obtain ⟨info, hinfo, h⟩ := Logged.ran_bind.mp h
  rw [Logged.ran_lift, buildInfo_eq hpurpose] at hinfo
  obtain rfl := Except.ok.inj hinfo
  obtain ⟨hmem, hout⟩ := Logged.ran_request.mp h
  unfold OpenSsl.Asked OpenSsl.answer at hmem
  cases hanswer : ssl.hkdfExpand secret
      (infoBytes purpose root.manifestHash root.contextHash c d) len with
  | none =>
      rw [hanswer] at hout
      cases hout
  | some out' =>
      rw [hanswer] at hout
      obtain rfl := Except.ok.inj hout
      simpa [hanswer] using hmem

theorem ran_deriveTrafficLogged {root : RootDerivation} {traffic : Fin materialCount → TrafficKey}
    (h : (deriveTrafficLogged ssl root).Ran (ssl.Asked log) traffic) (c : Channel) (d : Direction) :
    (deriveTrafficKeyLogged ssl root c d).Ran (fun call => ssl.Asked log (.expand call))
      (traffic (materialIndex c d)) := by
  have hkeys : ((Channel.all.product Direction.all).map
      fun label => materialIndex label.1 label.2).Nodup := by decide
  have hmem : (c, d) ∈ Channel.all.product Direction.all := by cases c <;> cases d <;> decide
  exact Logged.ran_mapCalls.mp ((Logged.Ran.foldlM_update hkeys h).1 (c, d) hmem)

/-- Every session was built from secrets with their calls in the log. -/
theorem exists_derived {fetched : Option (ℕ × ℕ)} {role : EndpointRole}
    {exporterMaterial : Vector UInt8 exporterMaterialLen} {applicationContext : Bytes}
    {session : Session}
    (h : (Session.createLogged ssl fetched role exporterMaterial applicationContext).Ran
      (ssl.Asked log) session) :
    ∃ secrets salt prk trafficSecret, session = Session.ofSecrets role secrets ∧
      Derived log exporterMaterial applicationContext secrets salt prk trafficSecret := by
  unfold Session.createLogged at h
  obtain ⟨context, hcontext, h⟩ := Logged.ran_bind.mp h
  obtain ⟨root, hroot, h⟩ := Logged.ran_bind.mp h
  obtain ⟨traffic, htraffic, h⟩ := Logged.ran_bind.mp h
  obtain ⟨-, -, h⟩ := Logged.ran_bind.mp h
  obtain rfl := Logged.ran_pure.mp h
  obtain ⟨hle, hcontext⟩ := ran_fromBytesLogged hcontext
  obtain ⟨hm, hc, salt, hsalt, hprk⟩ := ran_deriveRootLogged hroot
  rw [← hm, ← hc] at hcontext hsalt
  have hmaterial : ∀ c d, ∃ trafficSecret : Vector UInt8 hashLen,
      (.expand ⟨root.prk.toList, infoBytes (ascii "traffic") root.manifestHash root.contextHash c d,
        hashLen⟩, some trafficSecret.toList) ∈ log ∧
      (.expand ⟨trafficSecret.toList, infoBytes (ascii "key") root.manifestHash root.contextHash c d,
        keyLen⟩, some (traffic (materialIndex c d)).key.toList) ∈ log ∧
      (.expand ⟨trafficSecret.toList, infoBytes (ascii "iv") root.manifestHash root.contextHash c d,
        ivLen⟩, some (traffic (materialIndex c d)).iv.toList) ∈ log := by
    intro c d
    have h := ran_deriveTrafficLogged htraffic c d
    unfold deriveTrafficKeyLogged at h
    obtain ⟨trafficSecret, hsecret, h⟩ := Logged.ran_bind.mp h
    obtain ⟨key, hkey, h⟩ := Logged.ran_bind.mp h
    obtain ⟨iv, hiv, h⟩ := Logged.ran_bind.mp h
    rw [← Logged.ran_pure.mp h]
    exact ⟨trafficSecret, ran_expandInfoLogged (by decide) hsecret,
      ran_expandInfoLogged (by decide) hkey, ran_expandInfoLogged (by decide) hiv⟩
  choose trafficSecret hsecret hkey hiv using hmaterial
  exact ⟨⟨root.manifestHash, root.contextHash, traffic⟩, salt, root.prk, trafficSecret, rfl,
    ⟨hle, hcontext, hsalt, hprk, hsecret, hkey, hiv⟩⟩

end asked

/-- The context hash of a session is that of its application context. -/
theorem contextHash_of_create {ssl : OpenSsl} {fetched : Option (ℕ × ℕ)} {role : EndpointRole}
    {exporterMaterial : Vector UInt8 exporterMaterialLen} {applicationContext : Bytes}
    {session : Session}
    (h : Session.fromExporterEpoch ssl fetched role exporterMaterial applicationContext =
      .ok session) :
    ∃ context, CanonicalApplicationContext.fromBytes ssl applicationContext = .ok context ∧
      session.contextHash = context.contextHash := by
  rw [← Session.createLogged_result] at h
  have hran : (Session.createLogged ssl fetched role exporterMaterial applicationContext).Ran
      (fun _ => True) session := ⟨fun _ _ => trivial, h⟩
  unfold Session.createLogged at hran
  obtain ⟨context, hcontext, hran⟩ := Logged.ran_bind.mp hran
  obtain ⟨root, hroot, hran⟩ := Logged.ran_bind.mp hran
  obtain ⟨traffic, -, hran⟩ := Logged.ran_bind.mp hran
  obtain ⟨-, -, hran⟩ := Logged.ran_bind.mp hran
  obtain rfl := Logged.ran_pure.mp hran
  refine ⟨context, (fromBytesLogged_result _).symm.trans hcontext.result_eq, ?_⟩
  exact (hashes_of_deriveRoot ((deriveRootLogged_result _ _).symm.trans hroot.result_eq)).2

/-- Sessions of one exporter material and context have the same keys and IVs. -/
theorem traffic_of_create {ssl : OpenSsl} {fetched fetched' : Option (ℕ × ℕ)}
    {role role' : EndpointRole} {exporterMaterial : Vector UInt8 exporterMaterialLen}
    {applicationContext : Bytes} {s s' : Session}
    (h : Session.fromExporterEpoch ssl fetched role exporterMaterial applicationContext = .ok s)
    (h' : Session.fromExporterEpoch ssl fetched' role' exporterMaterial applicationContext =
      .ok s') : s.traffic = s'.traffic := by
  obtain ⟨context, secrets, hcontext, hsecrets, rfl⟩ := Session.fromExporterEpoch_eq_ok h
  obtain ⟨context', secrets', hcontext', hsecrets', rfl⟩ := Session.fromExporterEpoch_eq_ok h'
  rw [hcontext] at hcontext'
  obtain rfl := Except.ok.inj hcontext'
  rw [hsecrets] at hsecrets'
  obtain rfl := Except.ok.inj hsecrets'
  rfl

/-- The hash calls of two creations, with their answers. -/
def OpenSsl.pairLog (ssl : OpenSsl) (fetched fetched' : Option (ℕ × ℕ)) (role role' : EndpointRole)
    (exporterMaterial exporterMaterial' : Vector UInt8 exporterMaterialLen)
    (applicationContext applicationContext' : Bytes) : HashLog :=
  ssl.answered ((Session.createLogged ssl fetched role exporterMaterial applicationContext).calls ++
    (Session.createLogged ssl fetched' role' exporterMaterial' applicationContext').calls)

section pair
variable {ssl : OpenSsl} {fetched fetched' : Option (ℕ × ℕ)} {role role' : EndpointRole}
variable {exporterMaterial exporterMaterial' : Vector UInt8 exporterMaterialLen}
variable {applicationContext applicationContext' : Bytes} {s s' : Session}

/-- Both sessions are derived within the log of the two. -/
theorem exists_derived_pair
    (h : Session.fromExporterEpoch ssl fetched role exporterMaterial applicationContext = .ok s)
    (h' : Session.fromExporterEpoch ssl fetched' role' exporterMaterial' applicationContext' =
      .ok s') :
    let log := ssl.pairLog fetched fetched' role role' exporterMaterial exporterMaterial'
      applicationContext applicationContext'
    (∃ secrets salt prk trafficSecret, s = Session.ofSecrets role secrets ∧
      Derived log exporterMaterial applicationContext secrets salt prk trafficSecret) ∧
    ∃ secrets salt prk trafficSecret, s' = Session.ofSecrets role' secrets ∧
      Derived log exporterMaterial' applicationContext' secrets salt prk trafficSecret := by
  intro log
  rw [← Session.createLogged_result] at h h'
  constructor
  · exact exists_derived ⟨fun call hcall => List.mem_map_of_mem (List.mem_append_left _ hcall), h⟩
  · exact exists_derived ⟨fun call hcall => List.mem_map_of_mem (List.mem_append_right _ hcall), h'⟩

/-- **Keys determine their epoch.**  If the hash calls of two creations do not collide, a key or
IV of the one session is one of the other exactly for equal exporter material, application
context and traffic context; the context hashes are equal exactly for equal contexts. -/
theorem keys_separate
    (h : Session.fromExporterEpoch ssl fetched role exporterMaterial applicationContext = .ok s)
    (h' : Session.fromExporterEpoch ssl fetched' role' exporterMaterial' applicationContext' =
      .ok s')
    (hfree : CollisionFree (ssl.pairLog fetched fetched' role role' exporterMaterial
      exporterMaterial' applicationContext applicationContext'))
    (i j : Fin materialCount) :
    ((s.traffic i).key = (s'.traffic j).key ↔
      exporterMaterial = exporterMaterial' ∧ applicationContext = applicationContext' ∧ i = j) ∧
    ((s.traffic i).iv = (s'.traffic j).iv ↔
      exporterMaterial = exporterMaterial' ∧ applicationContext = applicationContext' ∧ i = j) ∧
    (s.contextHash = s'.contextHash ↔ applicationContext = applicationContext') := by
  obtain ⟨⟨secrets, salt, prk, ts, hs, hd⟩, secrets', salt', prk', ts', hs', hd'⟩ :=
    exists_derived_pair h h'
  obtain ⟨c, d, rfl⟩ := exists_materialIndex i
  obtain ⟨c', d', rfl⟩ := exists_materialIndex j
  rw [materialIndex_eq_iff]
  refine ⟨⟨fun heq => ?_, ?_⟩, ⟨fun heq => ?_, ?_⟩, fun heq => ?_, ?_⟩
  · rw [hs, hs'] at heq
    have hmem := hd'.key_mem c' d'
    rw [← show (secrets.traffic _).key = (secrets'.traffic _).key from heq] at hmem
    exact hd.output_inj hfree hd' (hd.key_mem c d) hmem
  · rintro ⟨rfl, rfl, rfl, rfl⟩
    rw [traffic_of_create h h']
  · rw [hs, hs'] at heq
    have hmem := hd'.iv_mem c' d'
    rw [← show (secrets.traffic _).iv = (secrets'.traffic _).iv from heq] at hmem
    exact hd.output_inj hfree hd' (hd.iv_mem c d) hmem
  · rintro ⟨rfl, rfl, rfl, rfl⟩
    rw [traffic_of_create h h']
  · rw [hs, hs'] at heq
    exact (hd.context_inj hfree hd' heq).2
  · rintro rfl
    obtain ⟨context, hcontext, hhash⟩ := contextHash_of_create h
    obtain ⟨context', hcontext', hhash'⟩ := contextHash_of_create h'
    rw [hcontext] at hcontext'
    obtain rfl := Except.ok.inj hcontext'
    exact hhash.trans hhash'.symm

end pair

def whitepaperExporter : Vector UInt8 exporterMaterialLen :=
  Vector.ofFn fun i => UInt8.ofNat i.val

def whitepaperTrafficSecrets : Fin materialCount → ℕ
  | 0 => 0x23f07ae113ca0d8abbd09f322c38537038ed4027cf63f612231064df435aa213963a7ed8172d107b0ec151e290791ca9
  | 1 => 0x26a9343eca20678c9ad405f6a8cee6776eb70f73c6a4ff756a4a731b21377bb8efce3b7a588c4765f11f5cbfd0b3ae1f
  | 2 => 0x83939112f94e1efb547321edc4479f26b731e1f35971cf11bb63490d021abf217b6cd0dac084120418bb86845bd80160
  | 3 => 0x22261b2390a3755d7eeeae7c7a82faf2d815d51b44d5eb1a7ee0c0e92d5c7d2dc96ea927c4a29d0fd0fde003e8aa0f62
  | 4 => 0x8fb16e5fd35a81f71e7fe8d8a450072c4ff28316abaf96c7d916fd7eec198dfca25dc6cec73e136f0dcd7ef2c6129444
  | 5 => 0x813587a97b379e2f44c00c5d90cd384930843ef9427fec672e68eee3322cb44a74037561d885b2f6ad343f45567bc0de
  | 6 => 0x5cc805957d502b0b9386e5a4ddfa928edf168273425d32226490a136d4f9590fc671cb6ac6a733402126ab0f9058f2eb
  | 7 => 0x2ef0c320256aaaa23249e59a10da145b052144dc52165572eb8797741122cf42194422271b37a1dd288aa9f5b82a4831
  | 8 => 0xeeade1b1a19f1e3743c65fe103958a4d80179c2981f7399aa60d38ed53016b840051566de1a02c66e902d28ce4b31424
  | 9 => 0x5a61bad6ed0bb2a68d6b214095cf0cf9e5263b0ba327dd6e508148ca761772753d36deef740029f69a2f0b263c0c940b

/-- The traffic context an info string is for. -/
def infoIndex (info : Bytes) : Fin materialCount :=
  let label := info.drop (info.length - 4)
  let direction : Direction :=
    if label.getLast? = some 0 then .clientToServer else .serverToClient
  (Channel.fromId (beNat (label.take 2))).elim 0 fun channel => materialIndex channel direction

/-- SHA-384 and HKDF on the calls behind the secrets of the test vector; elsewhere the output has
nothing to do with theirs. -/
def whitepaperSsl : OpenSsl where
  sha384 input := some (match input.length with
    | 83 => whitepaperSecrets.manifestHash
    | 96 => whitepaperSecrets.contextHash
    | _ => beVector 48
        0x0e711af9aef1d4168917e11321e8a8681bb0b0eb8f7715a3ef72ce92370ce30049c9c8851f7a56f4ae0f565bdf24c410)
  hkdfExtract _ _ := some (beVector 48
    0xce978992ca7bb97dac1851557103a0e5c5aa1740b2de0277897679f05887d4299b0dd40ade44449725dd353f91878624)
  hkdfExpand _ info len :=
    let i := infoIndex info
    some (beVector len (match len with
      | 12 => beNat (whitepaperTraffic i).iv.toList
      | 32 => beNat (whitepaperTraffic i).key.toList
      | _ => whitepaperTrafficSecrets i))

/-- The creation of the test vector. -/
def whitepaperCreation (role : EndpointRole) : Except Error Session :=
  Session.fromExporterEpoch whitepaperSsl (some (keyLen, ivLen)) role whitepaperExporter
    (ascii "G301-WHITEPAPER-TEST")

theorem whitepaperCreation_isSome (role : EndpointRole) :
    (whitepaperCreation role).toOption.isSome := by
  cases role <;> decide +kernel

def whitepaperSession (role : EndpointRole) : Session :=
  (whitepaperCreation role).toOption.get (whitepaperCreation_isSome role)

theorem eq_ok_get {x : Except Error Session} (h : x.toOption.isSome) :
    x = .ok (x.toOption.get h) := by
  cases x with
  | error e => cases h
  | ok session => rfl

theorem whitepaperCreation_eq (role : EndpointRole) :
    whitepaperCreation role = .ok (whitepaperSession role) :=
  eq_ok_get (whitepaperCreation_isSome role)

/-- The hash calls behind a session of the test vector. -/
def whitepaperLog : HashLog :=
  whitepaperSsl.answered (Session.createLogged whitepaperSsl (some (keyLen, ivLen)) .client
    whitepaperExporter (ascii "G301-WHITEPAPER-TEST")).calls

theorem whitepaperLog_collisionFree : CollisionFree whitepaperLog :=
  collisionFree_of_injOn (by decide +kernel)

/-- Both roles make the same hash calls. -/
theorem whitepaperLog_pair : CollisionFree (whitepaperSsl.pairLog (some (keyLen, ivLen))
    (some (keyLen, ivLen)) .client .server whitepaperExporter whitepaperExporter
    (ascii "G301-WHITEPAPER-TEST") (ascii "G301-WHITEPAPER-TEST")) := by
  refine whitepaperLog_collisionFree.mono ?_
  unfold OpenSsl.pairLog OpenSsl.answered
  rw [List.map_append]
  exact List.append_subset.mpr ⟨List.Subset.refl _, List.Subset.refl _⟩

/-- Both sides of the test vector have the same key for one direction of Menora, and different
keys for the two directions. -/
theorem keys_separate_whitepaper :
    ((whitepaperSession .client).traffic 0).key = ((whitepaperSession .server).traffic 0).key ∧
    ((whitepaperSession .client).traffic 0).key ≠ ((whitepaperSession .server).traffic 1).key := by
  have hseparate := keys_separate (whitepaperCreation_eq .client) (whitepaperCreation_eq .server)
    whitepaperLog_pair
  refine ⟨(hseparate 0 0).1.mpr ⟨rfl, rfl, rfl⟩, fun heq => ?_⟩
  cases ((hseparate 0 1).1.mp heq).2.2

/-! ### Outcomes of a creation -/

section outcomes
variable {ssl : OpenSsl}

/-- OpenSSL answers the call. -/
def OpenSsl.Answers (ssl : OpenSsl) (call : HashCall) : Prop := (ssl.answer call).isSome = true

theorem resolves_of_answer {call : HashCall} {n : ℕ} {answer : Option (Vector UInt8 n)}
    (h : ssl.answer call = answer.map Vector.toList) :
    (Logged.request call (answer.elim (.error .crypto) .ok) : Logged HashCall Error _).Resolves
      ssl.Answers .crypto := by
  have hanswers : ssl.Answers call ↔ answer.isSome = true := by
    rw [OpenSsl.Answers, h, Option.isSome_map]
  cases answer with
  | none => exact .request (fun hs => absurd (hanswers.mp hs) Bool.false_ne_true) fun _ => rfl
  | some out => exact .request (fun _ => ⟨out, rfl⟩) fun hs => absurd (hanswers.mpr rfl) hs

theorem sha384Logged_resolves (input : Bytes) :
    (sha384Logged ssl input).Resolves ssl.Answers .crypto :=
  resolves_of_answer rfl

theorem exists_manifest : ∃ bytes, manifest = .ok bytes := ⟨_, rfl⟩

/-- Every length of a context that is not refused fits its prefix. -/
theorem fromBytesLogged_resolves {applicationContext : Bytes}
    (h : ¬ (applicationContext = [] ∨ 255 < applicationContext.length)) :
    (CanonicalApplicationContext.fromBytesLogged ssl applicationContext).Resolves ssl.Answers
      .crypto := by
  obtain ⟨bytes, hbytes⟩ := exists_manifest
  unfold CanonicalApplicationContext.fromBytesLogged
  rw [if_neg h, hbytes]
  rw [not_or] at h
  refine (Logged.Resolves.lift bytes).bind fun framed _ => ?_
  refine (sha384Logged_resolves _).bind fun manifestHash _ => ?_
  rw [contextHashInput_eq _ (by omega)]
  refine (Logged.Resolves.lift _).bind fun input _ => ?_
  exact (sha384Logged_resolves _).bind fun contextHash _ => .pure _

theorem deriveRootLogged_resolves (exporterMaterial : Vector UInt8 exporterMaterialLen)
    (context : CanonicalApplicationContext) :
    (deriveRootLogged ssl exporterMaterial context).Resolves ssl.Answers .crypto := by
  unfold deriveRootLogged
  rw [saltInput_eq]
  refine (Logged.Resolves.lift _).bind fun input _ => ?_
  refine (sha384Logged_resolves _).bind fun salt _ => ?_
  exact (resolves_of_answer rfl).bind fun prk _ => .pure _

theorem expandInfoLogged_resolves (root : RootDerivation) (secret : Bytes) {purpose : Bytes}
    (h : purpose.length ≤ 255) (c : Channel) (d : Direction) (len : ℕ) :
    (expandInfoLogged ssl root secret purpose c d len).Resolves
      (fun call => ssl.Answers (.expand call)) .crypto := by
  unfold expandInfoLogged
  rw [buildInfo_eq h]
  refine (Logged.Resolves.lift _).bind fun info _ => ?_
  have hanswer := @resolves_of_answer ssl (.expand ⟨secret, info, len⟩) len _ rfl
  refine .request (fun hs => ?_) fun hs => ?_
  · exact hanswer.ok fun call hcall => by rwa [List.mem_singleton.mp hcall]
  · exact hanswer.error _ (List.mem_singleton_self _) hs

theorem deriveTrafficLogged_resolves (root : RootDerivation) :
    (deriveTrafficLogged ssl root).Resolves ssl.Answers .crypto := by
  unfold deriveTrafficLogged
  refine .foldlM (fun traffic label => ?_) _ _
  refine (Logged.Resolves.mapCalls ?_).bind fun material _ => .pure _
  unfold deriveTrafficKeyLogged
  refine (expandInfoLogged_resolves root _ (by decide) _ _ _).bind fun trafficSecret _ => ?_
  refine (expandInfoLogged_resolves root _ (by decide) _ _ _).bind fun key _ => ?_
  exact (expandInfoLogged_resolves root _ (by decide) _ _ _).bind fun iv _ => .pure _

theorem createLogged_refused {fetched : Option (ℕ × ℕ)} {role : EndpointRole}
    {exporterMaterial : Vector UInt8 exporterMaterialLen} {applicationContext : Bytes}
    (h : applicationContext = [] ∨ 255 < applicationContext.length) :
    Session.createLogged ssl fetched role exporterMaterial applicationContext =
      ⟨[], .error .invalidContext⟩ := by
  unfold Session.createLogged CanonicalApplicationContext.fromBytesLogged
  rw [if_pos h]
  rfl

/-- A context of an allowed length fails only by a call of OpenSSL, the last one for the cipher. -/
theorem createLogged_resolves {fetched : Option (ℕ × ℕ)} (role : EndpointRole)
    (exporterMaterial : Vector UInt8 exporterMaterialLen) {applicationContext : Bytes}
    (h : ¬ (applicationContext = [] ∨ 255 < applicationContext.length)) :
    let run := Session.createLogged ssl fetched role exporterMaterial applicationContext
    (fetched = some (keyLen, ivLen) → run.Resolves ssl.Answers .crypto) ∧
      (fetched ≠ some (keyLen, ivLen) → run.result = .error .crypto) := by
  intro run
  constructor
  · rintro rfl
    refine (fromBytesLogged_resolves h).bind fun context _ => ?_
    refine (deriveRootLogged_resolves _ context).bind fun root _ => ?_
    refine (deriveTrafficLogged_resolves root).bind fun traffic _ => ?_
    exact (Logged.Resolves.lift ()).bind fun _ _ => .pure _
  · intro hne
    refine (fromBytesLogged_resolves h).bind_error fun context => ?_
    refine (deriveRootLogged_resolves _ context).bind_error fun root => ?_
    refine (deriveTrafficLogged_resolves root).bind_error fun traffic => ?_
    unfold Session.aes256Gcm
    rw [if_neg hne]
    rfl

/-- **Outcomes of a creation.**  A context that is empty or longer than 255 bytes is refused before
any call of SHA-384 or HKDF, and nothing else is `InvalidContext`; with a context of an allowed
length the creation succeeds exactly if every call is answered and the cipher has the lengths of
the profile, and otherwise fails with `Crypto`. -/
theorem creation_outcomes (fetched : Option (ℕ × ℕ)) (role : EndpointRole)
    (exporterMaterial : Vector UInt8 exporterMaterialLen) (applicationContext : Bytes) :
    let result := Session.fromExporterEpoch ssl fetched role exporterMaterial applicationContext
    let calls := (Session.createLogged ssl fetched role exporterMaterial applicationContext).calls
    let sized := applicationContext ≠ [] ∧ applicationContext.length ≤ 255
    let served := (∀ call ∈ calls, ssl.Answers call) ∧ fetched = some (keyLen, ivLen)
    (¬ sized → calls = []) ∧ (result = .error .invalidContext ↔ ¬ sized) ∧
      ((∃ session, result = .ok session) ↔ sized ∧ served) ∧
      (result = .error .crypto ↔ sized ∧ ¬ served) := by
  intro result calls sized served
  have hresult : (Session.createLogged ssl fetched role exporterMaterial
      applicationContext).result = result := Session.createLogged_result _ _ _ _
  by_cases hsized : sized
  · have hallowed : ¬ (applicationContext = [] ∨ 255 < applicationContext.length) := by
      rw [not_or]
      exact ⟨hsized.1, by omega⟩
    obtain ⟨hfetched, hcipher⟩ :=
      @createLogged_resolves ssl fetched role exporterMaterial _ hallowed
    have hcrypto : ¬ served → result = .error .crypto := by
      intro hn
      apply hresult.symm.trans
      by_cases heq : fetched = some (keyLen, ivLen)
      · have hunanswered : ¬ ∀ call ∈ calls, ssl.Answers call := fun hall => hn ⟨hall, heq⟩
        simp only [not_forall] at hunanswered
        obtain ⟨call, hcall, hcall'⟩ := hunanswered
        exact (hfetched heq).error call hcall hcall'
      · exact hcipher heq
    have hok : served → ∃ session, result = .ok session := by
      rintro ⟨hall, heq⟩
      obtain ⟨session, hs⟩ := (hfetched heq).ok hall
      exact ⟨session, hresult.symm.trans hs⟩
    by_cases hserved : served
    · obtain ⟨session, hs⟩ := hok hserved
      simp [hsized, hserved, hs]
    · simp [hsized, hserved, hcrypto hserved]
  · have hrefused : applicationContext = [] ∨ 255 < applicationContext.length := by
      by_contra hn
      rw [not_or] at hn
      exact hsized ⟨hn.1, by omega⟩
    have hrun := @createLogged_refused ssl fetched role exporterMaterial _ hrefused
    have hcalls : calls = [] := congrArg Logged.calls hrun
    have herror : result = .error .invalidContext := hresult.symm.trans (congrArg Logged.result hrun)
    simp [hsized, hcalls, herror]

end outcomes

end G301.Inner
