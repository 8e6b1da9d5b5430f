import G301.Inner.Agreement
import G301.Inner.Derivation

/-! # Many sessions

A `Fleet` is any number of sessions, created one after the other from exporter epochs and called
in any order.  An exporter epoch makes at most one session per role and application context; this
is what the opaque, one-shot exporter material is for.

* `Fleet.nonces_distinct`: if the hash calls behind the sessions do not collide, no AES-GCM key
  is ever used twice under one nonce, over all encryption calls of all sessions.
* `Net.epochs_agree`: against an arbitrary network, two sessions that get anywhere with each other
  come from the same exporter material and application context.

A session of a fleet is a session of a `Net` whose other endpoint does nothing
(`Member.Sound`). -/

namespace G301.Inner

open ByteString Lts

/-- What a session is created from. -/
structure Origin where
  role : EndpointRole
  exporterMaterial : Vector UInt8 exporterMaterialLen
  applicationContext : Bytes
deriving DecidableEq

/-- A session, where it comes from, and the encryption calls that it has made. -/
structure Member where
  origin : Origin
  session : Session
  calls : EncryptLog

/-- The sessions created so far, and the hash calls behind them. -/
structure Fleet where
  members : List Member
  hashed : HashLog

inductive FleetEvent where
  | create (origin : Origin) (error : Option Error)
  | call (i : ℕ) (call : Call) (output : Output)

/-- The records that calls of one session returned. -/
def recordsOf (i : ℕ) (h : List FleetEvent) : List Bytes :=
  h.filterMap fun
    | .call j _ output => if j = i then output.sealed? else none
    | .create _ _ => none

/-- The member after a call. -/
def Member.advance (member : Member) (r : EncryptLog × Output × Session) : Member :=
  ⟨member.origin, r.2.2, member.calls ++ r.1⟩

namespace Fleet

def init : Fleet := ⟨[], []⟩

/-- One creation: its error, if any, and the fleet after it. -/
def create (fleet : Fleet) (ssl : OpenSsl) (fetched : Option (ℕ × ℕ)) (origin : Origin) :
    Option Error × Fleet :=
  let run := Session.createLogged ssl fetched origin.role origin.exporterMaterial
    origin.applicationContext
  let hashed := fleet.hashed ++ ssl.answered run.calls
  match run.result with
  | .error error => (some error, ⟨fleet.members, hashed⟩)
  | .ok session => (none, ⟨fleet.members ++ [⟨origin, session, []⟩], hashed⟩)

/-- A creation from an origin that no session has, or a call of a session, answered in any way. -/
inductive Step (fleet : Fleet) : FleetEvent → Fleet → Prop
  | create (ssl : OpenSsl) (fetched : Option (ℕ × ℕ)) (origin : Origin)
      (hnew : ∀ member ∈ fleet.members, member.origin ≠ origin) :
      Step fleet (.create origin (fleet.create ssl fetched origin).1)
        (fleet.create ssl fetched origin).2
  | call (i : ℕ) (member : Member) (aead : Aead) (call : Call)
      (hmember : fleet.members[i]? = some member) :
      Step fleet (.call i call (member.session.stepLogged aead call).2.1)
        ⟨fleet.members.set i (member.advance (member.session.stepLogged aead call)), fleet.hashed⟩

end Fleet

/-! ### One member -/

theorem Derived.mono {log log' : HashLog} (hsub : log ⊆ log')
    {exporterMaterial : Vector UInt8 exporterMaterialLen} {applicationContext : Bytes}
    {secrets : DerivedSecrets} {salt prk : Vector UInt8 hashLen}
    {trafficSecret : Channel → Direction → Vector UInt8 hashLen}
    (h : Derived log exporterMaterial applicationContext secrets salt prk trafficSecret) :
    Derived log' exporterMaterial applicationContext secrets salt prk trafficSecret :=
  ⟨h.length_le, hsub h.context_mem, hsub h.salt_mem, hsub h.prk_mem,
    fun c d => hsub (h.traffic_mem c d), fun c d => hsub (h.key_mem c d),
    fun c d => hsub (h.iv_mem c d)⟩

/-- The member's secrets are derived within the log, and its session, records and encryption calls
are those of a run of a `Net` in which only it is called. -/
structure Member.Sound (member : Member) (hashed : HashLog) (records : List Bytes)
    (secrets : DerivedSecrets) (net : Net) (h : List CallEvent) : Prop where
  derived : ∃ salt prk trafficSecret, Derived hashed member.origin.exporterMaterial
    member.origin.applicationContext secrets salt prk trafficSecret
  path : Path (Net.CallStep fun _ _ => True) (Net.init fun _ => secrets) h net
  session_eq : net.session member.origin.role = member.session
  calls_eq : callsOf h = member.calls
  who_eq : ∀ ev ∈ h, ev.1.who = member.origin.role
  records_eq : sealedRecords (h.map Prod.fst) = records

namespace Member.Sound

variable {member member' : Member} {hashed : HashLog} {records records' : List Bytes}
variable {secrets secrets' : DerivedSecrets} {net net' : Net} {h h' : List CallEvent}

theorem mono (hm : member.Sound hashed records secrets net h) {hashed' : HashLog}
    (hsub : hashed ⊆ hashed') : member.Sound hashed' records secrets net h := by
  obtain ⟨salt, prk, trafficSecret, hderived⟩ := hm.derived
  exact { hm with derived := ⟨salt, prk, trafficSecret, hderived.mono hsub⟩ }

/-- A call of the member is one more step of its net. -/
theorem call (hm : member.Sound hashed records secrets net h) (aead : Aead) (call : Call) :
    let r := member.session.stepLogged aead call
    (member.advance r).Sound hashed (records ++ r.2.1.sealed?.toList) secrets
      (net.advance member.origin.role call r.2)
      (h ++ [(⟨member.origin.role, call, r.2.1⟩, r.1)]) := by
  intro r
  refine ⟨hm.derived, hm.path.snoc ?_, ?_, ?_, ?_, ?_⟩
  · refine ⟨aead, r.2.2, trivial, ?_, rfl⟩
    show (net.session member.origin.role).stepLogged aead call = _
    rw [hm.session_eq]
  · simp [Net.advance, Member.advance]
  · rw [Net.callsOf_snoc, hm.calls_eq]
    rfl
  · intro ev hev
    rcases List.mem_append.mp hev with hev | hev
    · exact hm.who_eq ev hev
    · rw [List.mem_singleton.mp hev]
      rfl
  · rw [List.map_append, List.map_singleton, sealedRecords_snoc, hm.records_eq]

/-- A member's calls are under keys of its own direction. -/
theorem exists_channel (hm : member.Sound hashed records secrets net h)
    {x : Fin materialCount × EncryptCall} (hx : x ∈ member.calls) :
    ∃ c, x.1 = materialIndex c member.origin.role.sendDirection ∧
      x.2.key = (secrets.traffic x.1).key := by
  rw [← hm.calls_eq] at hx
  obtain ⟨ev, hev, hx⟩ := List.mem_flatMap.mp hx
  obtain ⟨c, n, hx, -⟩ := (Net.run_numbering hm.path).numbered ev hev x hx
  rw [← hm.who_eq ev hev]
  exact ⟨c, hx.index_eq, hx.key_eq⟩

/-- The origin of a member and the traffic context of a call are determined by the key. -/
theorem key_inj (hfree : CollisionFree hashed) (hm : member.Sound hashed records secrets net h)
    (hm' : member'.Sound hashed records' secrets' net' h') {x y : Fin materialCount × EncryptCall}
    (hx : x ∈ member.calls) (hy : y ∈ member'.calls) (hkey : x.2.key = y.2.key) :
    member.origin = member'.origin ∧ x.1 = y.1 := by
  obtain ⟨salt, prk, ts, hd⟩ := hm.derived
  obtain ⟨salt', prk', ts', hd'⟩ := hm'.derived
  obtain ⟨c, hindex, hkeyx⟩ := hm.exists_channel hx
  obtain ⟨c', hindex', hkeyy⟩ := hm'.exists_channel hy
  rw [hkeyx, hkeyy, hindex, hindex'] at hkey
  have hmem := hd'.key_mem c' member'.origin.role.sendDirection
  rw [← hkey] at hmem
  obtain ⟨he, ha, rfl, hdirection⟩ := hd.output_inj hfree hd'
    (hd.key_mem c member.origin.role.sendDirection) hmem
  have hrole := EndpointRole.sendDirection_inj hdirection
  constructor
  · obtain ⟨⟨role, material, context⟩, session, calls⟩ := member
    obtain ⟨⟨role', material', context'⟩, session', calls'⟩ := member'
    simp_all
  · rw [hindex, hindex', hrole]

/-- Under one key a member uses every nonce once. -/
theorem calls_distinct (hfree : CollisionFree hashed)
    (hm : member.Sound hashed records secrets net h) :
    (member.calls.map fun x => (x.2.key, x.2.nonce)).Nodup := by
  have hdistinct := (Net.run_numbering hm.path).nodup
  rw [hm.calls_eq] at hdistinct
  have hinj := List.inj_on_of_nodup_map hdistinct
  refine List.Nodup.map_on ?_ hdistinct.of_map
  intro x hx y hy heq
  obtain ⟨hkey, hnonce⟩ := Prod.mk.inj heq
  apply hinj hx hy
  rw [(hm.key_inj hfree hm hx hy hkey).2, hnonce]

/-- Every record of a member carries the answer to one of its calls. -/
theorem exists_call (hm : member.Sound hashed records secrets net h) {w : Bytes}
    (hw : w ∈ records) : ∃ x ∈ member.calls, ∃ t c n ciphertext tag,
      x.2.answer = some (ciphertext, tag) ∧ w = wire t c n ciphertext tag := by
  rw [← hm.records_eq, sealedRecords, List.mem_filterMap] at hw
  obtain ⟨ev, hev, hsealed⟩ := hw
  obtain ⟨ev', hev', rfl⟩ := List.mem_map.mp hev
  have hout : ev'.1.output = .record (.ok w) := by
    cases hr : ev'.1.output with
    | record r => cases r <;> simp_all [Output.sealed?]
    | opened r => simp_all [Output.sealed?]
    | none => simp_all [Output.sealed?]
  obtain ⟨x, t, c, n, ciphertext, tag, hcalls, -, hanswer, hwire⟩ :=
    Net.run_carries hm.path ev' hev' w hout
  refine ⟨x, ?_, t, c, n, ciphertext, tag, hanswer, hwire⟩
  rw [← hm.calls_eq]
  exact List.mem_flatMap.mpr ⟨ev', hev', by simp [hcalls]⟩

end Member.Sound

/-! ### Runs -/

namespace Fleet

variable {fleet next : Fleet} {h : List FleetEvent} {ev : FleetEvent}

/-- All members are sound, and of different origins. -/
structure Sound (h : List FleetEvent) (fleet : Fleet) : Prop where
  origins_nodup : (fleet.members.map Member.origin).Nodup
  member : ∀ (i : ℕ) (m : Member), fleet.members[i]? = some m →
    ∃ secrets net h', m.Sound fleet.hashed (recordsOf i h) secrets net h'
  unborn : ∀ i, fleet.members.length ≤ i → recordsOf i h = []

theorem recordsOf_create (i : ℕ) (origin : Origin) (error : Option Error) :
    recordsOf i (h ++ [.create origin error]) = recordsOf i h := by
  simp [recordsOf]

theorem recordsOf_call (i j : ℕ) (call : Call) (output : Output) :
    recordsOf i (h ++ [.call j call output]) =
      recordsOf i h ++ if j = i then output.sealed?.toList else [] := by
  by_cases hj : j = i
  · cases hs : output.sealed? <;> simp [recordsOf, hj, hs]
  · simp [recordsOf, hj]

theorem sound_init : Sound [] init :=
  ⟨List.nodup_nil, fun i m hm => (by cases hm), fun _ _ => rfl⟩

/-- The hash calls grow. -/
theorem Sound.hash (hsound : Sound h fleet) (origin : Origin) (error : Option Error)
    (calls : HashLog) :
    Sound (h ++ [.create origin error]) ⟨fleet.members, fleet.hashed ++ calls⟩ := by
  refine ⟨hsound.origins_nodup, fun i m hm => ?_, fun i hi => ?_⟩
  · obtain ⟨secrets, net, h', hmember⟩ := hsound.member i m hm
    rw [recordsOf_create]
    exact ⟨secrets, net, h', hmember.mono (List.subset_append_left _ _)⟩
  · rw [recordsOf_create]
    exact hsound.unborn i hi

/-- A new member has sealed nothing. -/
theorem Sound.create (hsound : Sound h fleet) {ssl : OpenSsl} {fetched : Option (ℕ × ℕ)}
    {origin : Origin} (hnew : ∀ member ∈ fleet.members, member.origin ≠ origin) :
    Sound (h ++ [.create origin (fleet.create ssl fetched origin).1])
      (fleet.create ssl fetched origin).2 := by
  unfold Fleet.create
  dsimp only
  cases hrun : (Session.createLogged ssl fetched origin.role origin.exporterMaterial
      origin.applicationContext).result with
  | error error => exact hsound.hash origin _ _
  | ok session =>
      have hgrown := hsound.hash origin none (ssl.answered (Session.createLogged ssl fetched
        origin.role origin.exporterMaterial origin.applicationContext).calls)
      have hran : (Session.createLogged ssl fetched origin.role origin.exporterMaterial
          origin.applicationContext).Ran (ssl.Asked (fleet.hashed ++ ssl.answered _)) session :=
        ⟨fun call hcall => List.mem_append_right _ (List.mem_map_of_mem hcall), hrun⟩
      obtain ⟨secrets, salt, prk, trafficSecret, rfl, hderived⟩ := exists_derived hran
      refine ⟨?_, fun i m hm => ?_, fun i hi => ?_⟩
      · rw [List.map_append]
        refine List.nodup_append.mpr ⟨hsound.origins_nodup, List.nodup_singleton _, ?_⟩
        intro o ho o' ho'
        obtain ⟨member, hmember, rfl⟩ := List.mem_map.mp ho
        rw [List.mem_singleton.mp ho']
        exact hnew member hmember
      · rw [List.getElem?_append] at hm
        split at hm
        · exact hgrown.member i m hm
        rename_i hlength
        have hi : i = fleet.members.length := by
          have hlt := (List.getElem?_eq_some_iff.mp hm).1
          simp only [List.length_singleton] at hlt
          omega
        subst hi
        rw [Nat.sub_self] at hm
        obtain rfl := Option.some.inj hm
        refine ⟨secrets, Net.init fun _ => secrets, [], ⟨_, _, _, hderived⟩, .nil, rfl, rfl, ?_, ?_⟩
        · intro ev hev
          cases hev
        · exact (hgrown.unborn _ (Nat.le_refl _)).symm
      · rw [List.length_append] at hi
        exact hgrown.unborn i (Nat.le_of_add_right_le hi)

/-- A call changes its own member only. -/
theorem Sound.call (hsound : Sound h fleet) {i : ℕ} {member : Member} (aead : Aead) (call : Call)
    (hmember : fleet.members[i]? = some member) :
    Sound (h ++ [.call i call (member.session.stepLogged aead call).2.1])
      ⟨fleet.members.set i (member.advance (member.session.stepLogged aead call)),
        fleet.hashed⟩ := by
  have hi := (List.getElem?_eq_some_iff.mp hmember).1
  refine ⟨?_, fun j m hm => ?_, fun j hj => ?_⟩
  · rw [List.map_set]
    have hlt : i < (fleet.members.map Member.origin).length := by rwa [List.length_map]
    have horigin : (fleet.members.map Member.origin)[i] = member.origin := by
      rw [List.getElem_map, (List.getElem?_eq_some_iff.mp hmember).2]
    show ((fleet.members.map Member.origin).set i member.origin).Nodup
    rw [← horigin, List.set_getElem_self]
    exact hsound.origins_nodup
  · rw [recordsOf_call]
    dsimp only at hm
    by_cases hji : i = j
    · subst hji
      rw [List.getElem?_set_self hi, Option.some.injEq] at hm
      subst hm
      obtain ⟨secrets, net, h', hsoundMember⟩ := hsound.member i member hmember
      rw [if_pos rfl]
      exact ⟨secrets, _, _, hsoundMember.call aead call⟩
    · rw [List.getElem?_set_ne hji] at hm
      rw [if_neg hji, List.append_nil]
      exact hsound.member j m hm
  · rw [List.length_set] at hj
    rw [recordsOf_call, if_neg (by omega), List.append_nil]
    exact hsound.unborn j hj

theorem run_sound (hp : Path Step init h fleet) : Sound h fleet := by
  refine hp.invariant (P := Sound) sound_init ?_
  intro h fleet ev next _ ih hs
  cases hs with
  | create ssl fetched origin hnew => exact ih.create hnew
  | call i member aead call hmember => exact ih.call aead call hmember

/-- **Nonces of a fleet.**  If the hash calls behind the sessions do not collide, then over all
encryption calls of all sessions no AES-GCM key is used twice under one nonce.  Every record that
a session returned carries the answer to one of its calls. -/
theorem nonces_distinct (hp : Path Step init h fleet) (hfree : CollisionFree fleet.hashed) :
    (fleet.members.flatMap fun member =>
      member.calls.map fun x => (x.2.key, x.2.nonce)).Nodup ∧
    ∀ i member, fleet.members[i]? = some member → ∀ w ∈ recordsOf i h,
      ∃ x ∈ member.calls, ∃ t c n ciphertext tag,
        x.2.answer = some (ciphertext, tag) ∧ w = wire t c n ciphertext tag := by
  have hsound := run_sound hp
  have hmember : ∀ member ∈ fleet.members, ∃ records secrets net h',
      member.Sound fleet.hashed records secrets net h' := by
    intro member hmem
    obtain ⟨i, hi, heq⟩ := List.getElem_of_mem hmem
    obtain ⟨secrets, net, h', hm⟩ := hsound.member i member (List.getElem?_eq_some_iff.mpr ⟨hi, heq⟩)
    exact ⟨_, secrets, net, h', hm⟩
  constructor
  · refine List.nodup_flatMap.mpr ⟨fun member hmem => ?_, ?_⟩
    · obtain ⟨_, _, _, _, hm⟩ := hmember member hmem
      exact hm.calls_distinct hfree
    · refine (List.pairwise_map.mp hsound.origins_nodup).imp_of_mem ?_
      intro member member' hmem hmem' hne
      obtain ⟨_, _, _, _, hm⟩ := hmember member hmem
      obtain ⟨_, _, _, _, hm'⟩ := hmember member' hmem'
      intro p hp hp'
      obtain ⟨x, hx, rfl⟩ := List.mem_map.mp hp
      obtain ⟨y, hy, heq⟩ := List.mem_map.mp hp'
      exact hne (hm.key_inj hfree hm' hx hy (Prod.mk.inj heq).1.symm).1
  · intro i member hi w hw
    obtain ⟨secrets, net, h', hm⟩ := hsound.member i member hi
    exact hm.exists_call hw

/-- A creation or a call, with the functions of the test vector. -/
def move (fleet : Fleet) : Origin ⊕ ℕ × Call → Option (FleetEvent × Fleet)
  | .inl origin =>
      if ∀ member ∈ fleet.members, member.origin ≠ origin then
        let r := fleet.create whitepaperSsl (some (keyLen, ivLen)) origin
        some (.create origin r.1, r.2)
      else none
  | .inr (i, call) => do
      let member ← fleet.members[i]?
      let r := member.session.stepLogged whitepaperAead call
      return (.call i call r.2.1, ⟨fleet.members.set i (member.advance r), fleet.hashed⟩)

theorem step_move (fleet : Fleet) (input : Origin ⊕ ℕ × Call) (r : FleetEvent × Fleet)
    (h : move fleet input = some r) : Step fleet r.1 r.2 := by
  unfold move at h
  split at h
  · split at h
    · rename_i hnew
      obtain rfl := Option.some.inj h
      exact .create _ _ _ hnew
    · cases h
  · simp only [Option.bind_eq_bind, Option.bind_eq_some_iff] at h
    obtain ⟨member, hmember, heq⟩ := h
    obtain rfl := Option.some.inj heq
    exact .call _ _ _ _ hmember

/-- Both sessions of one epoch, and their Commits. -/
def bothCommits : List (Origin ⊕ ℕ × Call) :=
  [.inl ⟨.client, whitepaperExporter, ascii "G301-WHITEPAPER-TEST"⟩,
    .inl ⟨.server, whitepaperExporter, ascii "G301-WHITEPAPER-TEST"⟩,
    .inr (0, .sealCommit), .inr (1, .sealCommit)]

theorem bothCommits_isSome : (exec? move init bothCommits).isSome := by decide +kernel

theorem nonces_distinct_bothCommits :
    let fleet := ((exec? move init bothCommits).get bothCommits_isSome).2
    let pairs := fleet.members.flatMap fun member =>
      member.calls.map fun x => (x.2.key, x.2.nonce)
    pairs.length = 2 ∧ pairs.Nodup := by
  intro fleet pairs
  have hp := path_exec? step_move (Option.some_get bothCommits_isSome).symm
  have hhashed : fleet.hashed = whitepaperLog ++ whitepaperLog := by decide +kernel
  have hfree : CollisionFree fleet.hashed := by
    rw [hhashed]
    exact whitepaperLog_collisionFree.mono
      (List.append_subset.mpr ⟨List.Subset.refl _, List.Subset.refl _⟩)
  exact ⟨by decide +kernel, (nonces_distinct hp hfree).1⟩

end Fleet

/-! ### Two sessions and the network -/

namespace Net

/-- Two sessions that have not exchanged anything. -/
def pair (client server : Session) : Net :=
  ⟨fun | .client => client | .server => server, []⟩

/-- **Epochs agree.**  Against an arbitrary network, and if the hash calls behind the two sessions
do not collide: an endpoint opens a record, or gets out of Committing other than to Failed, only
if its peer was created from the same exporter material and application context, and so has the
same keys. -/
theorem epochs_agree {ssl : OpenSsl} {fetched fetched' : Option (ℕ × ℕ)}
    {exporterMaterial exporterMaterial' : Vector UInt8 exporterMaterialLen}
    {applicationContext applicationContext' : Bytes} {client server : Session}
    {h : List NetEvent} {net : Net}
    (hclient : Session.fromExporterEpoch ssl fetched .client exporterMaterial applicationContext =
      .ok client)
    (hserver : Session.fromExporterEpoch ssl fetched' .server exporterMaterial'
      applicationContext' = .ok server)
    (hfree : CollisionFree (ssl.pairLog fetched fetched' .client .server exporterMaterial
      exporterMaterial' applicationContext applicationContext'))
    (hp : Path (Step Aead.Ideal) (pair client server) h net) (e : EndpointRole)
    (hpast : (∃ t, Opened e t h) ∨
      (net.session e).state ≠ .committing ∧ (net.session e).state ≠ .failed) :
    exporterMaterial = exporterMaterial' ∧ applicationContext = applicationContext' ∧
      client.traffic = server.traffic := by
  suffices hsame : exporterMaterial = exporterMaterial' ∧
      applicationContext = applicationContext' by
    obtain ⟨rfl, rfl⟩ := hsame
    exact ⟨rfl, rfl, traffic_of_create hclient hserver⟩
  obtain ⟨⟨secrets, salt, prk, ts, rfl, hd⟩, secrets', salt', prk', ts', rfl, hd'⟩ :=
    exists_derived_pair hclient hserver
  by_contra hne
  -- different epochs have different keys
  have hmismatched : Mismatched secrets secrets' := by
    refine .inr fun i heq => hne ?_
    obtain ⟨c, d, rfl⟩ := exists_materialIndex i
    have hmem := hd'.key_mem c d
    rw [← heq] at hmem
    obtain ⟨he, ha, -⟩ := hd.output_inj hfree hd' (hd.key_mem c d) hmem
    exact ⟨he, ha⟩
  have hstart : pair (.ofSecrets .client secrets) (.ofSecrets .server secrets') =
      init fun | .client => secrets | .server => secrets' := by
    unfold pair init
    congr 1
    funext e
    cases e <;> rfl
  rw [hstart] at hp
  have hnothing := receivedBy_of_mismatched hp hmismatched e
  rcases hpast with ⟨t, m, hm, -⟩ | ⟨hcommitting, hfailed⟩
  · rw [hnothing] at hm
    cases hm
  · obtain ⟨d, -, hreceive, hstate, -⟩ := exists_duplex hp e
    rw [hnothing] at hreceive
    have hidle : d.receive = .idle := (Option.some.inj hreceive).symm
    exact hcommitting ((hstate hfailed).trans (Duplex.state_eq_committing.mpr (.inr hidle)))

/-- Both Commits make the sessions of the test vector Active. -/
theorem epochs_agree_bothActive :
    let r := exec (move whitepaperAead)
      (pair (whitepaperSession .client) (whitepaperSession .server)) (twoRecords.take 4)
    (r.2.session .client).state = .active ∧
      (whitepaperSession .client).traffic = (whitepaperSession .server).traffic := by
  intro r
  have hactive : (r.2.session .client).state = .active := by decide +kernel
  have hp : Path (Step Aead.Ideal)
      (pair (whitepaperSession .client) (whitepaperSession .server)) r.1 r.2 :=
    path_execute (fun _ => Aead.ideal_answering _ _) _ _
  exact ⟨hactive, (epochs_agree (whitepaperCreation_eq .client) (whitepaperCreation_eq .server)
    whitepaperLog_pair hp .client (.inr (by simp [hactive]))).2.2⟩

end Net

end G301.Inner
