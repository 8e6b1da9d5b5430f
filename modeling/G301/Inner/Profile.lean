import Mathlib.Data.Fin.Basic
import Mathlib.Logic.Function.Basic
import G301.Lib.BigEndian

/-! # The inner profile: channels, traffic keys and the key schedule

The fixed v0.1 profile of the inner layer: five channels in two directions, hence ten
traffic contexts numbered by `materialIndex`, and the key schedule that derives their keys
and IVs from 48 bytes of exporter material.

SHA-384 and HKDF are those of OpenSSL; they are the functions of an `OpenSsl` value, each
of which may fail.  Everything hashed or expanded is built here, byte by byte.  A `usize`
or `u64` of the source is a natural number. -/

namespace G301.Inner

open ByteString

/-- The error classes of the crate. -/
inductive Error where
  | invalidContext
  | invalidState
  | invalidRecord
  | authenticationFailed
  | limitReached
  | plaintextTooLarge
  | crypto
deriving DecidableEq, Repr

def suite : Bytes := ascii "G301-ORLOGTHATTR-AEAD-v1"

abbrev exporterMaterialLen : ℕ := 48
abbrev hashLen : ℕ := 48
abbrev keyLen : ℕ := 32
abbrev ivLen : ℕ := 12
abbrev materialCount : ℕ := 10

inductive Direction where
  | clientToServer
  | serverToClient
deriving DecidableEq, Repr

namespace Direction

def all : List Direction := [clientToServer, serverToClient]

/-- `direction as u8`. -/
def toByte : Direction → UInt8
  | clientToServer => 0
  | serverToClient => 1

theorem toByte_inj {d e : Direction} (h : d.toByte = e.toByte) : d = e := by
  cases d <;> cases e <;> simp_all [toByte]

end Direction

inductive Channel where
  | menora
  | chanukkia
  | jomKippur
  | tzafah
  | guard
deriving DecidableEq, Repr

namespace Channel

def all : List Channel := [menora, chanukkia, jomKippur, tzafah, guard]

def id : Channel → ℕ
  | menora => 301
  | chanukkia => 99
  | jomKippur => 372
  | tzafah => 175
  | guard => 947

def role : Channel → UInt8
  | guard => 1
  | _ => 0

def label : Channel → Bytes
  | menora => ascii "MENORA"
  | chanukkia => ascii "CHANUKKIA"
  | jomKippur => ascii "JOM-KIPPUR"
  | tzafah => ascii "TZAFAH"
  | guard => ascii "GUARD"

def isGuard : Channel → Bool
  | guard => true
  | _ => false

def fromId : ℕ → Option Channel
  | 301 => some menora
  | 99 => some chanukkia
  | 372 => some jomKippur
  | 175 => some tzafah
  | 947 => some guard
  | _ => none

def ordinal : Channel → ℕ
  | menora => 0
  | chanukkia => 1
  | jomKippur => 2
  | tzafah => 3
  | guard => 4

theorem ordinal_lt (c : Channel) : c.ordinal < 5 := by cases c <;> decide

theorem ordinal_inj {c d : Channel} (h : c.ordinal = d.ordinal) : c = d := by
  cases c <;> cases d <;> simp_all [ordinal]

theorem id_lt (c : Channel) : c.id < 256 ^ 2 := by cases c <;> decide

@[simp] theorem fromId_id (c : Channel) : fromId c.id = some c := by cases c <;> rfl

theorem id_inj {c d : Channel} (h : c.id = d.id) : c = d := by
  have hc := fromId_id c
  rw [h, fromId_id d] at hc
  exact (Option.some.inj hc).symm

theorem id_of_fromId {n : ℕ} {c : Channel} (h : fromId n = some c) : c.id = n := by
  unfold fromId at h
  split at h <;> simp_all [id] <;> subst h <;> rfl

@[simp] theorem isGuard_iff (c : Channel) : c.isGuard = true ↔ c = guard := by
  cases c <;> simp [isGuard]

end Channel

/-- The number of the traffic context of a channel and direction. -/
def materialIndex (channel : Channel) (direction : Direction) : Fin materialCount :=
  ⟨channel.ordinal * 2 + direction.toByte.toNat, by
    have := channel.ordinal_lt
    show _ < 10
    cases direction <;> simp [Direction.toByte] <;> omega⟩

theorem materialIndex_inj {c c' : Channel} {d d' : Direction}
    (h : materialIndex c d = materialIndex c' d') : c = c' ∧ d = d' := by
  have h' : c.ordinal * 2 + d.toByte.toNat = c'.ordinal * 2 + d'.toByte.toNat := congrArg Fin.val h
  have hd : d.toByte = d'.toByte := by
    cases d <;> cases d' <;> simp [Direction.toByte] at h' ⊢ <;> omega
  have hc : c.ordinal = c'.ordinal := by rw [hd] at h'; omega
  exact ⟨Channel.ordinal_inj hc, Direction.toByte_inj hd⟩

@[simp] theorem materialIndex_eq_iff {c c' : Channel} {d d' : Direction} :
    materialIndex c d = materialIndex c' d' ↔ c = c' ∧ d = d' :=
  ⟨materialIndex_inj, by rintro ⟨rfl, rfl⟩; rfl⟩

/-- Every traffic context belongs to a channel and direction. -/
theorem exists_materialIndex : ∀ i, ∃ c d, materialIndex c d = i
  | 0 => ⟨.menora, .clientToServer, rfl⟩
  | 1 => ⟨.menora, .serverToClient, rfl⟩
  | 2 => ⟨.chanukkia, .clientToServer, rfl⟩
  | 3 => ⟨.chanukkia, .serverToClient, rfl⟩
  | 4 => ⟨.jomKippur, .clientToServer, rfl⟩
  | 5 => ⟨.jomKippur, .serverToClient, rfl⟩
  | 6 => ⟨.tzafah, .clientToServer, rfl⟩
  | 7 => ⟨.tzafah, .serverToClient, rfl⟩
  | 8 => ⟨.guard, .clientToServer, rfl⟩
  | 9 => ⟨.guard, .serverToClient, rfl⟩

/-- Key and IV of one traffic context. -/
structure TrafficKey where
  key : Vector UInt8 keyLen
  iv : Vector UInt8 ivLen
deriving DecidableEq, Repr

def TrafficKey.zeroed : TrafficKey := ⟨Vector.replicate keyLen 0, Vector.replicate ivLen 0⟩

/-- What the key schedule hands to a session. -/
structure DerivedSecrets where
  manifestHash : Vector UInt8 hashLen
  contextHash : Vector UInt8 hashLen
  traffic : Fin materialCount → TrafficKey

/-! ### Length-prefixed framing -/

def appendBe16 (out : Bytes) (value : ℕ) : Except Error Bytes :=
  if value < 2 ^ 16 then .ok (out ++ beBytes 2 value) else .error .invalidContext

def appendLp8 (out value : Bytes) : Except Error Bytes :=
  if value.length < 2 ^ 8 then .ok (out ++ beBytes 1 value.length ++ value)
  else .error .invalidContext

def appendLp16 (out value : Bytes) : Except Error Bytes := do
  let out ← appendBe16 out value.length
  return out ++ value

def manifest : Except Error Bytes := do
  let out ← appendLp16 [] suite
  Channel.all.foldlM
    (fun out channel => appendLp8 (out ++ [channel.role] ++ beBytes 2 channel.id) channel.label)
    (out ++ [UInt8.ofNat Channel.all.length])

/-! ### Key schedule -/

/-- The hash and key-derivation functions of OpenSSL; `none` is a failed call. -/
structure OpenSsl where
  sha384 : Bytes → Option (Vector UInt8 hashLen)
  hkdfExtract : Bytes → Bytes → Option (Vector UInt8 hashLen)
  hkdfExpand : Bytes → Bytes → (len : ℕ) → Option (Vector UInt8 len)

section keySchedule
variable (ssl : OpenSsl)

def sha384 (input : Bytes) : Except Error (Vector UInt8 hashLen) :=
  (ssl.sha384 input).elim (.error .crypto) .ok

def manifestHash : Except Error (Vector UInt8 hashLen) := do
  sha384 ssl (← manifest)

/-- The bytes hashed by `buildContextHash`. -/
def contextHashInput (manifestHash : Vector UInt8 hashLen) (applicationContext : Bytes) :
    Except Error Bytes := do
  let framed ← appendLp16 [] suite
  appendLp16 (framed ++ manifestHash.toList) applicationContext

def buildContextHash (manifestHash : Vector UInt8 hashLen) (applicationContext : Bytes) :
    Except Error (Vector UInt8 hashLen) := do
  sha384 ssl (← contextHashInput manifestHash applicationContext)

/-- The bytes hashed by `buildSalt`. -/
def saltInput (manifestHash contextHash : Vector UInt8 hashLen) : Except Error Bytes := do
  let framed ← appendLp16 [] suite
  return framed ++ manifestHash.toList ++ contextHash.toList

def buildSalt (manifestHash contextHash : Vector UInt8 hashLen) :
    Except Error (Vector UInt8 hashLen) := do
  sha384 ssl (← saltInput manifestHash contextHash)

def buildInfo (purpose : Bytes) (manifestHash contextHash : Vector UInt8 hashLen)
    (channel : Channel) (direction : Direction) : Except Error Bytes := do
  let info ← appendLp16 [] suite
  let info ← appendLp8 info purpose
  return info ++ manifestHash.toList ++ contextHash.toList ++ beBytes 2 channel.id ++
    [channel.role, direction.toByte]

/-- The canonical context shared by the TLS exporter and the key schedule. -/
structure CanonicalApplicationContext where
  manifestHash : Vector UInt8 hashLen
  contextHash : Vector UInt8 hashLen

def CanonicalApplicationContext.fromBytes (applicationContext : Bytes) :
    Except Error CanonicalApplicationContext := do
  if applicationContext = [] ∨ 255 < applicationContext.length then
    throw .invalidContext
  let manifestHash ← Inner.manifestHash ssl
  let contextHash ← buildContextHash ssl manifestHash applicationContext
  return ⟨manifestHash, contextHash⟩

structure RootDerivation where
  manifestHash : Vector UInt8 hashLen
  contextHash : Vector UInt8 hashLen
  prk : Vector UInt8 hashLen

def deriveRootWithContext (exporterMaterial : Vector UInt8 exporterMaterialLen)
    (context : CanonicalApplicationContext) : Except Error RootDerivation := do
  let salt ← buildSalt ssl context.manifestHash context.contextHash
  let prk ← (ssl.hkdfExtract exporterMaterial.toList salt.toList).elim (.error .crypto) .ok
  return ⟨context.manifestHash, context.contextHash, prk⟩

/-- One `HKDF-Expand` call under the info string of a purpose. -/
def expandInfo (root : RootDerivation) (secret purpose : Bytes) (channel : Channel)
    (direction : Direction) (len : ℕ) : Except Error (Vector UInt8 len) := do
  let info ← buildInfo purpose root.manifestHash root.contextHash channel direction
  (ssl.hkdfExpand secret info len).elim (.error .crypto) .ok

/-- The body of the derivation loop: key and IV of one channel and direction. -/
def deriveTrafficKey (root : RootDerivation) (channel : Channel) (direction : Direction) :
    Except Error TrafficKey := do
  let trafficSecret ←
    expandInfo ssl root root.prk.toList (ascii "traffic") channel direction hashLen
  let key ← expandInfo ssl root trafficSecret.toList (ascii "key") channel direction keyLen
  let iv ← expandInfo ssl root trafficSecret.toList (ascii "iv") channel direction ivLen
  return ⟨key, iv⟩

def deriveSecretsWithContext (exporterMaterial : Vector UInt8 exporterMaterialLen)
    (context : CanonicalApplicationContext) : Except Error DerivedSecrets := do
  let root ← deriveRootWithContext ssl exporterMaterial context
  let traffic ← (Channel.all.product Direction.all).foldlM
    (fun traffic (channel, direction) => do
      let material ← deriveTrafficKey ssl root channel direction
      return Function.update traffic (materialIndex channel direction) material)
    (fun _ => TrafficKey.zeroed)
  return ⟨root.manifestHash, root.contextHash, traffic⟩

end keySchedule

end G301.Inner
