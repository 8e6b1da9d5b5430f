import Mathlib.Data.List.Nodup
import Mathlib.Data.List.ProdSigma
import G301.Lib.Logged
import G301.Inner.Schedule
import G301.Inner.Record

/-! # Labels of the key schedule and of records

`labels_unambiguous`: an info string of the key schedule and the associated data of a record
each determine everything that goes into them, and no two `HKDF-Expand` calls of one derivation
share an info string.

`deriveSecretsLogged` is the derivation with a log of its `HKDF-Expand` calls
(`deriveSecretsLogged_result`), `fillAad` the loop that builds the associated data in place
(`fillAad_eq`). -/

namespace G301.Inner

open ByteString

/-! ### The calls of one derivation -/

structure ExpandCall where
  secret : Bytes
  info : Bytes
  len : ℕ
deriving DecidableEq, Repr

section derivation
variable (ssl : OpenSsl)

def expandInfoLogged (root : RootDerivation) (secret purpose : Bytes) (channel : Channel)
    (direction : Direction) (len : ℕ) : Logged ExpandCall Error (Vector UInt8 len) := do
  let info ← Logged.lift (buildInfo purpose root.manifestHash root.contextHash channel direction)
  Logged.request ⟨secret, info, len⟩ ((ssl.hkdfExpand secret info len).elim (.error .crypto) .ok)

def deriveTrafficKeyLogged (root : RootDerivation) (channel : Channel) (direction : Direction) :
    Logged ExpandCall Error TrafficKey := do
  let trafficSecret ←
    expandInfoLogged ssl root root.prk.toList (ascii "traffic") channel direction hashLen
  let key ←
    expandInfoLogged ssl root trafficSecret.toList (ascii "key") channel direction keyLen
  let iv ← expandInfoLogged ssl root trafficSecret.toList (ascii "iv") channel direction ivLen
  return ⟨key, iv⟩

/-- `deriveSecretsWithContext` with its `HKDF-Expand` calls. -/
def deriveSecretsLogged (exporterMaterial : Vector UInt8 exporterMaterialLen)
    (context : CanonicalApplicationContext) : Logged ExpandCall Error DerivedSecrets := do
  let root ← Logged.lift (deriveRootWithContext ssl exporterMaterial context)
  let traffic ← (Channel.all.product Direction.all).foldlM
    (fun traffic (channel, direction) => do
      let material ← deriveTrafficKeyLogged ssl root channel direction
      return Function.update traffic (materialIndex channel direction) material)
    (fun _ => TrafficKey.zeroed)
  return ⟨root.manifestHash, root.contextHash, traffic⟩

end derivation

section derivation
variable {ssl : OpenSsl}

theorem expandInfoLogged_result (root : RootDerivation) (secret purpose : Bytes)
    (channel : Channel) (direction : Direction) (len : ℕ) :
    (expandInfoLogged ssl root secret purpose channel direction len).result =
      expandInfo ssl root secret purpose channel direction len := by
  simp [expandInfoLogged, expandInfo]

theorem deriveTrafficKeyLogged_result (root : RootDerivation) (channel : Channel)
    (direction : Direction) : (deriveTrafficKeyLogged ssl root channel direction).result =
      deriveTrafficKey ssl root channel direction := by
  simp [deriveTrafficKeyLogged, deriveTrafficKey, expandInfoLogged_result]

theorem deriveSecretsLogged_result (ssl : OpenSsl)
    (exporterMaterial : Vector UInt8 exporterMaterialLen)
    (context : CanonicalApplicationContext) :
    (deriveSecretsLogged ssl exporterMaterial context).result =
      deriveSecretsWithContext ssl exporterMaterial context := by
  simp [deriveSecretsLogged, deriveSecretsWithContext, Logged.result_foldlM,
    deriveTrafficKeyLogged_result]

def purposes : List Bytes := [ascii "traffic", ascii "key", ascii "iv"]

/-- The info strings of one channel and direction. -/
def trafficInfos (manifestHash contextHash : Vector UInt8 hashLen) (label : Channel × Direction) :
    List Bytes :=
  purposes.map fun purpose => infoBytes purpose manifestHash contextHash label.1 label.2

theorem expandInfoLogged_asks (root : RootDerivation) (secret : Bytes) {purpose : Bytes}
    (h : purpose.length ≤ 255) (channel : Channel) (direction : Direction) (len : ℕ) :
    (expandInfoLogged ssl root secret purpose channel direction len).Asks ExpandCall.info
      [infoBytes purpose root.manifestHash root.contextHash channel direction] := by
  unfold expandInfoLogged
  rw [buildInfo_eq h, ← List.nil_append [_]]
  refine (Logged.Asks.lift _).bind fun info hinfo => ?_
  obtain rfl := Except.ok.inj hinfo
  exact .request ExpandCall.info ⟨secret, _, len⟩ _

theorem deriveTrafficKeyLogged_asks (root : RootDerivation) (label : Channel × Direction) :
    (deriveTrafficKeyLogged ssl root label.1 label.2).Asks ExpandCall.info
      (trafficInfos root.manifestHash root.contextHash label) := by
  unfold deriveTrafficKeyLogged
  refine (expandInfoLogged_asks root _ (by decide) _ _ _).bind fun trafficSecret _ => ?_
  refine (expandInfoLogged_asks root _ (by decide) _ _ _).bind fun key _ => ?_
  refine (expandInfoLogged_asks root _ (by decide) _ _ _).bind fun iv _ => ?_
  exact .pure _

theorem hashes_of_deriveRoot {exporterMaterial : Vector UInt8 exporterMaterialLen}
    {context : CanonicalApplicationContext} {root : RootDerivation}
    (h : deriveRootWithContext ssl exporterMaterial context = .ok root) :
    root.manifestHash = context.manifestHash ∧ root.contextHash = context.contextHash := by
  unfold deriveRootWithContext at h
  cases hsalt : buildSalt ssl context.manifestHash context.contextHash with
  | error e =>
      rw [hsalt] at h
      cases h
  | ok salt =>
      rw [hsalt] at h
      change ((ssl.hkdfExtract exporterMaterial.toList salt.toList).elim (.error .crypto) .ok >>=
        fun prk => (.ok ⟨context.manifestHash, context.contextHash, prk⟩ :
          Except Error RootDerivation)) = _ at h
      cases hprk : ssl.hkdfExtract exporterMaterial.toList salt.toList with
      | none =>
          rw [hprk] at h
          cases h
      | some prk =>
          rw [hprk] at h
          obtain rfl := Except.ok.inj h
          exact ⟨rfl, rfl⟩

/-- The info strings of a derivation, in order. -/
def allInfos (manifestHash contextHash : Vector UInt8 hashLen) : List Bytes :=
  (Channel.all.product Direction.all).flatMap (trafficInfos manifestHash contextHash)

theorem deriveSecretsLogged_asks (ssl : OpenSsl)
    (exporterMaterial : Vector UInt8 exporterMaterialLen)
    (context : CanonicalApplicationContext) :
    (deriveSecretsLogged ssl exporterMaterial context).Asks ExpandCall.info
      (allInfos context.manifestHash context.contextHash) := by
  unfold deriveSecretsLogged
  rw [← List.nil_append (allInfos _ _)]
  refine (Logged.Asks.lift _).bind fun root hroot => ?_
  obtain ⟨hm, hc⟩ := hashes_of_deriveRoot hroot
  rw [← hm, ← hc, ← List.append_nil (allInfos _ _)]
  refine Logged.Asks.bind (.foldlM (fun traffic label => ?_) _ _) fun traffic _ => .pure _
  rw [← List.append_nil (trafficInfos _ _ _)]
  exact (deriveTrafficKeyLogged_asks root label).bind fun material _ => .pure _

theorem allInfos_eq (m c : Vector UInt8 hashLen) :
    allInfos m c = ((Channel.all.product Direction.all).product purposes).map
      fun label => infoBytes label.2 m c label.1.1 label.1.2 := by
  unfold allInfos List.product
  rw [List.map_flatMap]
  simp only [List.map_map]
  rfl

theorem allInfos_length (m c : Vector UInt8 hashLen) : (allInfos m c).length = 30 := by
  rw [allInfos_eq, List.length_map]
  rfl

theorem allInfos_nodup (m c : Vector UInt8 hashLen) : (allInfos m c).Nodup := by
  rw [allInfos_eq]
  refine List.Nodup.map_on ?_ (by decide)
  rintro ⟨⟨ch, d⟩, p⟩ hlabel ⟨⟨ch', d'⟩, p'⟩ hlabel' h
  have hshort : ∀ p ∈ purposes, p.length ≤ 255 := by decide
  have hp := hshort p (List.pair_mem_product.mp hlabel).2
  have hp' := hshort p' (List.pair_mem_product.mp hlabel').2
  obtain ⟨rfl, -, -, rfl, rfl⟩ := infoBytes_inj hp hp' h
  rfl

end derivation

/-! ### Associated data -/

abbrev aadLen : ℕ := 2 + suite.length + 2 * hashLen + 1 + headerLen

/-- The loop of `aad`: six parts copied into an array of `aadLen` zeros, with the offset behind
the last one; `none` if a part does not fit. -/
def fillAad (manifestHash contextHash : Vector UInt8 hashLen) (direction : Direction)
    (header : Vector UInt8 headerLen) : Option (Bytes × ℕ) :=
  copyParts (List.replicate aadLen 0) 0
    [beBytes 2 suite.length, suite, manifestHash.toList, contextHash.toList, [direction.toByte],
      header.toList]

theorem fillAad_eq (m c : Vector UInt8 hashLen) (d : Direction) (e : Vector UInt8 headerLen) :
    fillAad m c d e = some (aad m c d e, aadLen) := by
  have hsize : aadLen = (beBytes 2 suite.length ++ suite ++ m.toList ++ c.toList ++
      [d.toByte] ++ e.toList).length := by
    simp only [List.length_append, beBytes_length, Vector.length_toList, List.length_singleton,
      aadLen]
    omega
  unfold fillAad
  rw [copyParts_eq _ _ (by simpa using hsize), List.length_replicate]
  simp [aad]

theorem encoded_of_new {t : RecordType} {ch : Channel} {s n : ℕ} {header : Header}
    (h : Header.new t ch s n = .ok header) :
    header.encoded = encodeHeader t ch s n ∧ n ≤ maxPlaintext := by
  have hn := plaintextLen_le_of_new h
  rw [new_eq_ok hn] at h
  obtain rfl := Except.ok.inj h
  exact ⟨rfl, hn⟩

/-- Associated data of headers that `Header.new` made. -/
theorem aad_new_inj {m m' c c' : Vector UInt8 hashLen} {d d' : Direction} {t t' : RecordType}
    {ch ch' : Channel} {s s' n n' : ℕ} {header header' : Header} (hs : s < 2 ^ 64)
    (hs' : s' < 2 ^ 64) (hnew : Header.new t ch s n = .ok header)
    (hnew' : Header.new t' ch' s' n' = .ok header')
    (h : aad m c d header.encoded = aad m' c' d' header'.encoded) :
    m = m' ∧ c = c' ∧ d = d' ∧ t = t' ∧ ch = ch' ∧ s = s' ∧ n = n' := by
  obtain ⟨hencoded, hn⟩ := encoded_of_new hnew
  obtain ⟨hencoded', hn'⟩ := encoded_of_new hnew'
  obtain ⟨hm, hc, hd, he⟩ := aad_inj h
  rw [hencoded, hencoded'] at he
  exact ⟨hm, hc, hd, encodeHeader_inj (by omega) hn (by omega) hn' he⟩

/-- **Labels are unambiguous.**  Info strings exist for all purposes of at most 255 bytes and
determine what they are made of; a derivation makes thirty `HKDF-Expand` calls, or fewer if it
fails, no two of them under one info string; associated data fill their array exactly and
determine what they are made of. -/
theorem labels_unambiguous :
    (∀ purpose m c channel direction, purpose.length ≤ 255 →
      ∃ info, buildInfo purpose m c channel direction = .ok info) ∧
    (∀ p p' m m' c c' ch ch' d d' info, p.length ≤ 255 → p'.length ≤ 255 →
      buildInfo p m c ch d = .ok info → buildInfo p' m' c' ch' d' = .ok info →
      p = p' ∧ m = m' ∧ c = c' ∧ ch = ch' ∧ d = d') ∧
    (∀ ssl exporterMaterial context,
      (deriveSecretsLogged ssl exporterMaterial context).result =
        deriveSecretsWithContext ssl exporterMaterial context ∧
      ((deriveSecretsLogged ssl exporterMaterial context).calls.map ExpandCall.info).Nodup ∧
      ∀ secrets, deriveSecretsWithContext ssl exporterMaterial context = .ok secrets →
        (deriveSecretsLogged ssl exporterMaterial context).calls.length = 30) ∧
    (∀ m c d header, fillAad m c d header = some (aad m c d header, aadLen)) ∧
    (∀ m m' c c' d d' t t' ch ch' s s' n n' header header', s < 2 ^ 64 → s' < 2 ^ 64 →
      Header.new t ch s n = .ok header → Header.new t' ch' s' n' = .ok header' →
      aad m c d header.encoded = aad m' c' d' header'.encoded →
      m = m' ∧ c = c' ∧ d = d' ∧ t = t' ∧ ch = ch' ∧ s = s' ∧ n = n') := by
  refine ⟨?_, ?_, ?_, fillAad_eq, ?_⟩
  · intro purpose m c channel direction hpurpose
    exact ⟨_, buildInfo_eq hpurpose m c channel direction⟩
  · intro p p' m m' c c' ch ch' d d' info hp hp' hinfo hinfo'
    rw [buildInfo_eq hp] at hinfo
    rw [buildInfo_eq hp'] at hinfo'
    exact infoBytes_inj hp hp' (Except.ok.inj (hinfo.trans hinfo'.symm))
  · intro ssl exporterMaterial context
    have hresult := deriveSecretsLogged_result ssl exporterMaterial context
    have hasks := deriveSecretsLogged_asks ssl exporterMaterial context
    refine ⟨hresult, hasks.nodup (allInfos_nodup _ _), fun secrets hsecrets => ?_⟩
    have hall := congrArg List.length (hasks.all secrets (hresult.trans hsecrets))
    rwa [List.length_map, allInfos_length] at hall
  · intro m m' c c' d d' t t' ch ch' s s' n n' header header' hs hs' hnew hnew' h
    exact aad_new_inj hs hs' hnew hnew' h

/-- Two info strings and two associated data that differ in one argument. -/
theorem labels_unambiguous_consecutive :
    let zero := Vector.replicate hashLen 0
    let header sequence := encodeHeader .data .menora sequence 4
    buildInfo (ascii "key") zero zero .menora .clientToServer ≠
      buildInfo (ascii "iv") zero zero .menora .clientToServer ∧
    aad zero zero .clientToServer (header 0) ≠ aad zero zero .clientToServer (header 1) := by
  intro zero header
  obtain ⟨hok, hinfo, -, -, haad⟩ := labels_unambiguous
  constructor
  · intro heq
    obtain ⟨info, hkey⟩ := hok (ascii "key") zero zero .menora .clientToServer (by decide)
    obtain ⟨hpurpose, -⟩ := hinfo _ _ _ _ _ _ _ _ _ _ info (by decide) (by decide) hkey
      (heq.symm.trans hkey)
    exact absurd hpurpose (by decide)
  · intro heq
    obtain ⟨-, -, -, -, -, hsequence, -⟩ := haad _ _ _ _ _ _ _ _ _ _ 0 1 _ _ _ _
      (by decide) (by decide) (new_eq_ok (by decide)) (new_eq_ok (by decide)) heq
    cases hsequence

end G301.Inner
