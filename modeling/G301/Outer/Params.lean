import Mathlib.Data.List.Basic
import G301.Lib.BigEndian

/-! # Parameter lists of the outer cipher

`OSSL_PARAM` arrays as the cipher reads them: lookup by key, duplicates, the denylist of
legacy parameters, and the values that the cipher admits.  Reading and writing a `size_t`
parameter is libcrypto's; it is the parameter `Libcrypto`. -/

namespace G301.Outer

open ByteString

abbrev keyLength : ℕ := 32
abbrev ivLength : ℕ := 12
abbrev tagLength : ℕ := 16
abbrev manifestLength : ℕ := 32

/-- A pointer with a length: NULL, or a buffer of that length. -/
inductive Buffer where
  | null (size : ℕ)
  | bytes (data : Bytes)
deriving DecidableEq, Repr

namespace Buffer

def size : Buffer → ℕ
  | null size => size
  | bytes data => data.length

/-- What a non-NULL pointer points at. -/
def data? : Buffer → Option Bytes
  | null _ => none
  | bytes data => some data

def isNull : Buffer → Bool
  | null _ => true
  | bytes _ => false

theorem eq_bytes_of_isNull {b : Buffer} (h : b.isNull = false) :
    ∃ data, b = .bytes data := by
  cases b with
  | null => cases h
  | bytes data => exact ⟨data, rfl⟩

end Buffer

inductive DataType where
  | integer
  | unsignedInteger
  | real
  | utf8String
  | octetString
  | utf8Ptr
  | octetPtr
deriving DecidableEq, Repr

/-- An `OSSL_PARAM`; `buffer` is `data` with `data_size`. -/
structure Param where
  key : String
  dataType : DataType
  buffer : Buffer
  returnSize : ℕ
deriving DecidableEq, Repr

namespace Param

def keylen : String := "keylen"
def ivlen : String := "ivlen"
def aeadTaglen : String := "taglen"
def aeadTag : String := "tag"

/-- `OSSL_PARAM_UNMODIFIED`. -/
def unmodified : ℕ := 2 ^ 64 - 1

/-- `OSSL_PARAM_construct_size_t`, on a little-endian machine. -/
def constructSizeT (key : String) (value : ℕ) : Param :=
  ⟨key, .unsignedInteger, .bytes (beBytes 8 value).reverse, unmodified⟩

/-- `OSSL_PARAM_construct_octet_string`. -/
def constructOctetString (key : String) (buffer : Buffer) : Param :=
  ⟨key, .octetString, buffer, unmodified⟩

/-- `OSSL_PARAM_locate_const`: the first parameter of that key. -/
def locate (params : List Param) (key : String) : Option Param :=
  params.find? fun param => param.key = key

/-- The array with the first parameter of a key replaced. -/
def replace (params : List Param) (key : String) (value : Param) : List Param :=
  match params with
  | [] => []
  | param :: rest => if param.key = key then value :: rest else param :: replace rest key value

/-- Reads and writes of `size_t` parameters by libcrypto. -/
structure Libcrypto where
  /-- `OSSL_PARAM_get_size_t`: the value, if it can be read. -/
  getSizeT : Param → Option ℕ
  /-- `OSSL_PARAM_set_size_t`: success, and buffer and return size afterwards. -/
  setSizeT : Param → ℕ → Bool × Buffer × ℕ

/-- `g301_has_duplicate` on a parameter array. -/
def hasDuplicate (params : List Param) (name : String) : Bool :=
  decide (1 < params.countP fun param => param.key = name)

/-- The legacy parameters that the cipher refuses. -/
def forbidden : List String :=
  ["mackey", "tlsaad", "tlsaadpad", "tlsivgen", "tlsivfixed", "tlsivinv", "pipeline-tag",
    "tls-multi", "tls1multi_aad", "tls1multi_aadpacklen", "tls1multi_enc", "tls1multi_encin",
    "tls1multi_enclen", "tls1multi_interleave", "tls1multi_maxbufsz", "tls1multi_maxsndfrag",
    "tls-version", "tls-mac", "tls-mac-size", "encrypt-then-mac"]

def hasForbiddenLegacyParam (params : List Param) : Bool :=
  params.any fun param => forbidden.any fun name => param.key = name

def initParamsHaveDuplicates (params : List Param) : Bool :=
  hasDuplicate params keylen || hasDuplicate params ivlen || hasDuplicate params aeadTaglen ||
    hasDuplicate params aeadTag

def getCtxParamsHaveDuplicates (params : List Param) : Bool :=
  hasDuplicate params keylen || hasDuplicate params ivlen || hasDuplicate params aeadTaglen ||
    hasDuplicate params aeadTag

section
variable (lib : Libcrypto)

/-- A `size_t` parameter is absent or reads as `expected`. -/
def sizeAdmitted (params : List Param) (key : String) (expected : ℕ) : Bool :=
  match locate params key with
  | none => true
  | some param => decide (lib.getSizeT param = some expected)

/-- The checks on key, IV and tag length that init and set_ctx_params share. -/
def lengthsAdmitted (params : List Param) : Bool :=
  sizeAdmitted lib params keylen keyLength && sizeAdmitted lib params ivlen ivLength &&
    sizeAdmitted lib params aeadTaglen tagLength

end

/-- The parameter is a non-NULL octet string of 16 bytes. -/
def isTag (param : Param) : Bool :=
  decide (param.dataType = .octetString) && !param.buffer.isNull &&
    decide (param.buffer.size = tagLength)

/-- The tag parameter of a possibly absent array. -/
def tagOf (params : Option (List Param)) : Option Param :=
  params.bind fun params => locate params aeadTag

/-- The IV length parameter of a possibly absent array. -/
def ivOf (params : Option (List Param)) : Option Param :=
  params.bind fun params => locate params ivlen

/-- `filtered_params`: what the inner context gets to see. -/
def filtered (ivParam tagParam : Option Param) : List Param :=
  (ivParam.map fun _ => constructSizeT ivlen ivLength).toList ++
    (tagParam.map fun tag => constructOctetString aeadTag tag.buffer).toList

/-- The tag that an array given to the inner context carries. -/
def tagBytes (params : List Param) : Option Bytes :=
  (locate params aeadTag).bind fun tag => tag.buffer.data?

theorem tagBytes_filtered (ivParam : Option Param) (tagParam : Option Param) :
    tagBytes (filtered ivParam tagParam) = tagParam.bind fun tag => tag.buffer.data? := by
  cases ivParam <;> cases tagParam <;>
    simp [tagBytes, filtered, locate, constructSizeT, constructOctetString, ivlen, aeadTag]

end Param

end G301.Outer
