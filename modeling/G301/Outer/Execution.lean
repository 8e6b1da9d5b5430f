import G301.Lib.Path
import G301.Outer.Cipher

/-! # Executing a context

A script of calls with the answers given to each drives a context (`Cipher.path_execute`).
The values at the end are those of the source's state machine test. -/

namespace G301.Outer

open ByteString Param Lts

namespace Cipher

theorem step_call (lib : Libcrypto) (ctx : Ctx) (ans : Answers) (call : Call) :
    (step lib ctx ans call).1.call = call := by
  cases call <;> rfl

theorem step_self (lib : Libcrypto) (ctx : Ctx) (ans : Answers) (call : Call) :
    Step lib ctx (step lib ctx ans call).1 (step lib ctx ans call).2 :=
  ⟨ans, by rw [step_call]⟩

/-- One call with the answers it gets. -/
def move (lib : Libcrypto) (ctx : Ctx) (input : Answers × Call) : Event × Ctx :=
  step lib ctx input.1 input.2

theorem path_execute (lib : Libcrypto) (ctx : Ctx) (script : List (Answers × Call)) :
    Path (Step lib) ctx (exec (move lib) ctx script).1 (exec (move lib) ctx script).2 :=
  path_exec (fun ctx input => step_self lib ctx input.1 input.2) ctx script

end Cipher

/-- `size_t` parameters of eight bytes on a little-endian machine. -/
def littleEndian : Libcrypto where
  getSizeT param :=
    match param.dataType, param.buffer with
    | .unsignedInteger, .bytes data => if data.length = 8 then some (beNat data.reverse) else none
    | _, _ => none
  setSizeT param value :=
    match param.dataType, param.buffer with
    | .unsignedInteger, .bytes data =>
        if data.length = 8 then (true, .bytes (beBytes 8 value).reverse, 8)
        else (false, param.buffer, param.returnSize)
    | _, _ => (false, param.buffer, param.returnSize)

/-- Every request succeeds, and an update returns `n` bytes. -/
def compliant (n : ℕ) : Answers where
  init := true
  recordLock := true
  installLock := true
  atomicAdd := true
  manifest := ⟨true, manifestLength⟩
  data := ⟨true, n⟩
  final := ⟨true, 0⟩
  getParams := ⟨true, tagLength, Vector.ofFn fun i => 0xa0 + UInt8.ofNat i⟩
  setParams := true

/-! ### The state machine test -/

def keyA : Buffer := .bytes (1 :: List.replicate 31 0)
def keyB : Buffer := .bytes (2 :: List.replicate 31 0)
def ivA : Buffer := .bytes (3 :: List.replicate 11 0)
def ivB : Buffer := .bytes (4 :: List.replicate 11 0)
def aad : Buffer := .bytes [0x17, 0x03, 0x03, 0x00, 0x20]
def payload : Buffer := .bytes [7, 8, 9, 10]

def tag : Bytes := 0x5a :: List.replicate 15 0

def tagParam : Param := constructOctetString aeadTag (.bytes tag)

/-- One encryption record: init, associated data, payload, final. -/
def encryptRecord (key iv : Buffer) : List (Answers × Call) :=
  [(compliant 0, .init true key iv none), (compliant 5, .update false true 0 aad),
    (compliant 4, .update true true 4 payload), (compliant 0, .final true)]

/-- A decryption record up to its final, the tag given with the init. -/
def decryptRecord (key iv : Buffer) : List (Answers × Call) :=
  [(compliant 0, .init false key iv (some [tagParam])),
    (compliant 5, .update false true 0 aad), (compliant 4, .update true true 4 payload)]

/-- The context after the first three calls of an encryption record. -/
def activeRecord : Ctx :=
  (exec (Cipher.move littleEndian) (Ctx.new encryptRecordLimit) ((encryptRecord keyA ivA).take 3)).2

end G301.Outer
