import G301.Inner.EncryptCalls

/-! # Executing two endpoints

A script of inputs drives a `Net` whose decryptions look up what was encrypted before, so
that every script gives a run under an ideal AEAD (`Net.path_execute`).  A script of calls
with the AEAD of each drives a single session (`Session.path_execute`).

The values at the end are those of the source's test vectors: the key schedule's output for
the exporter bytes 0, 1, …, 47 and the context `G301-WHITEPAPER-TEST`, and AES-256-GCM on the
first records of that session. -/

namespace G301.Inner

open ByteString Lts

namespace Net

/-- One move: a call of an endpoint, or the delivery to it of the record that was sealed as
number `i`. -/
inductive Input where
  | call (who : EndpointRole) (call : Call)
  | deliver (who : EndpointRole) (i : ℕ)

/-- The call an input makes. -/
def Input.resolve (net : Net) : Input → EndpointRole × Call
  | .call who c => (who, c)
  | .deliver who i => (who, .openRecord ((net.log[i]?).elim [] SealEntry.record))

/-- One move, decrypting by lookup. -/
def move (aead : Aead) (net : Net) (input : Input) : NetEvent × Net :=
  let (who, call) := input.resolve net
  let r := (net.session who).step (Aead.answering net.encryptions aead) call
  (⟨who, call, r.1⟩, net.advance who call r)

theorem path_execute {allowed : List Encryption → Aead → Prop} {aead : Aead}
    (hallowed : ∀ encryptions, allowed encryptions (Aead.answering encryptions aead)) (net : Net)
    (script : List Input) :
    Path (Step allowed) net (exec (move aead) net script).1 (exec (move aead) net script).2 :=
  path_exec (fun _ _ => ⟨_, _, hallowed _, rfl, rfl⟩) net script

/-- `move` with its encryption calls. -/
def moveLogged (aead : Aead) (net : Net) (input : Input) : CallEvent × Net :=
  let (who, call) := input.resolve net
  let r := (net.session who).stepLogged (Aead.answering net.encryptions aead) call
  ((⟨who, call, r.2.1⟩, r.1), net.advance who call r.2)

theorem path_executeLogged {allowed : List Encryption → Aead → Prop} {aead : Aead}
    (hallowed : ∀ encryptions, allowed encryptions (Aead.answering encryptions aead)) (net : Net)
    (script : List Input) :
    Path (CallStep allowed) net (exec (moveLogged aead) net script).1
      (exec (moveLogged aead) net script).2 :=
  path_exec (fun _ _ => ⟨_, _, hallowed _, rfl, rfl⟩) net script

end Net

/-! ### One endpoint -/

namespace Session

/-- One call, with the AEAD that answers it. -/
def move (session : Session) (input : Aead × Call) : Event × Session :=
  let r := session.step input.1 input.2
  ((input.2, r.1), r.2)

theorem path_execute (session : Session) (script : List (Aead × Call)) :
    Path Step session (exec move session script).1 (exec move session script).2 :=
  path_exec (fun _ input => ⟨input.1, rfl⟩) session script

end Session

/-! ### The test vectors -/

def whitepaperTraffic : Fin materialCount → TrafficKey
  | 0 => ⟨beVector 32 0x8f8a4133c88f9d3d19c0a55deba7c198ee6b0fea93fee0a5be1bc364d9a4d821,
      beVector 12 0x3f3bc8cfde490a24c9f00a90⟩
  | 1 => ⟨beVector 32 0x12cd81c300fa77adce5cc4d88f8f59884f449002f326415c2898bac174c93821,
      beVector 12 0x2ac43566712ef008fd79eef4⟩
  | 2 => ⟨beVector 32 0x10d509f4735ace4c300b116171f74641ec321e3a9dccc41b55289bb874017168,
      beVector 12 0xceb486354eb5c67a57054095⟩
  | 3 => ⟨beVector 32 0x60f1091dc637cd5e820be34e8aeef376de3f184c66f641c7f53d0279f987123c,
      beVector 12 0x3063600e71da49c98b257650⟩
  | 4 => ⟨beVector 32 0x8693051a40481ab4e7c4569894f22fc0117544964b750da1d47e0903fb354be8,
      beVector 12 0x9d1e6a618de268780a8d16df⟩
  | 5 => ⟨beVector 32 0x7b827ac160c3482f4d5e8bc2f641a3ac4c4f8fa861a8883949b91e00c32972ba,
      beVector 12 0x74cbf1527f3279a93ee1dd89⟩
  | 6 => ⟨beVector 32 0x9548286bc4b149f97bd95ed92673cc175dcb4f9e9c5322930dc7ec4007660201,
      beVector 12 0xf11a4b2edca2a66aced793b1⟩
  | 7 => ⟨beVector 32 0xfdc7142878ce0559d52823f8ec547d490e16eb201e4c7ca55104d1a9f77470cf,
      beVector 12 0xd9bf5ea9fcff0eee724ca9cd⟩
  | 8 => ⟨beVector 32 0xe62a244a8ad64f960257cffc565ebe985f7eff84a65bae1aac4535c563f8291a,
      beVector 12 0x9996dd53b3a4b86eabc3b8f6⟩
  | 9 => ⟨beVector 32 0x9166a1e6966b7fa533579d9efd5c4979d506479b4c318718022987625fdcc532,
      beVector 12 0xae8b14ba00148d377da421af⟩

def whitepaperSecrets : DerivedSecrets where
  manifestHash := beVector 48
    0x44a3c009427ff37bb751b3165c01ce6242506dd59655ccab30f26075de9b84fd9e0d8fb42715b18f534bedfbcdd37e0e
  contextHash := beVector 48
    0x5cc3ad0b332f266abd9e278845a6fdccd386883e1d713003781bc4466a796996f708248ab1b83fcb6ecf4b55c4cb2273
  traffic := whitepaperTraffic

/-- Nonce, first word of the key stream and tag: both Commits, both Closes under sequence
number 1, two Data records of the Client and one of the Server on Menora, all saying `G301`. -/
def whitepaperRecords : List (ℕ × ℕ × ℕ) :=
  [(0x9996dd53b3a4b86eabc3b8f6, 0x00000000, 0xc33c525be4b6d17346772275e14cb1c0),
    (0xae8b14ba00148d377da421af, 0x00000000, 0x014b32fafaf8de08453db2cd6055ab24),
    (0x9996dd53b3a4b86eabc3b8f7, 0x00000000, 0x0f3604860220210bc77a0b9380096375),
    (0xae8b14ba00148d377da421ae, 0x00000000, 0x15dfe895dbd661b779cfdcacb466601a),
    (0x3f3bc8cfde490a24c9f00a90, 0x8603f283, 0x1e8546f0c615ffecfe919005e67675c9),
    (0x3f3bc8cfde490a24c9f00a91, 0x2ae64b42, 0x24a1dc8ff031d88f5a39717a85cd0cd3),
    (0x2ac43566712ef008fd79eef4, 0x4fabf761, 0xdf73ab2bc3f4a42b3a72ce7bc4267dff)]

/-- AES-256-GCM on the records of the table; elsewhere key stream and tag are zero. -/
def whitepaperAead : Aead :=
  Aead.gcm
    (fun _ nonce len =>
      let word := (whitepaperRecords.lookup (beNat nonce)).elim 0 Prod.fst
      ⟨((beBytes 4 word ++ List.replicate len 0).take len).toArray, by simp⟩)
    (fun _ nonce _ _ => beVector tagLen ((whitepaperRecords.lookup (beNat nonce)).elim 0 Prod.snd))

end G301.Inner
