import Mathlib.Data.List.Basic
import Mathlib.Tactic.Ring

/-! # Big-endian integers and byte strings

`beBytes k n` is the `k`-byte big-endian encoding of `n` (of `n` modulo `256 ^ k`), and
`beNat` reads a byte string back.  The two are inverse to each other: `beNat_beBytes` on
numbers that fit, `beBytes_beNat` on every byte string.  `xorBytes_inj` says that adding a
fixed pad is injective. -/

namespace ByteString

/-- A byte string of any length. -/
abbrev Bytes := List UInt8

/-- The byte string of an ASCII literal. -/
def ascii (s : String) : Bytes := s.toList.map fun c => UInt8.ofNat c.toNat

/-- A byte string as a fixed-size array, if it has that size. -/
def toArray? (n : ℕ) (l : Bytes) : Option (Vector UInt8 n) :=
  if h : l.length = n then some ⟨l.toArray, by simpa using h⟩ else none

theorem toArray?_eq_some {n : ℕ} {l : Bytes} {v : Vector UInt8 n} :
    toArray? n l = some v ↔ l = v.toList := by
  constructor
  · intro h
    unfold toArray? at h
    split at h
    · obtain rfl := Option.some.inj h; rfl
    · cases h
  · rintro rfl
    obtain ⟨a, ha⟩ := v
    simp [toArray?, Vector.toList, ha]

@[simp] theorem toArray?_toList {n : ℕ} (v : Vector UInt8 n) : toArray? n v.toList = some v :=
  toArray?_eq_some.mpr rfl

/-! ### Integers -/

/-- The `k`-byte big-endian encoding of `n`. -/
def beBytes : ℕ → ℕ → Bytes
  | 0, _ => []
  | k + 1, n => UInt8.ofNat (n / 256 ^ k) :: beBytes k n

/-- The number a byte string denotes, most significant byte first. -/
def beNat : Bytes → ℕ
  | [] => 0
  | b :: l => b.toNat * 256 ^ l.length + beNat l

@[simp] theorem beBytes_length (k n : ℕ) : (beBytes k n).length = k := by
  induction k with
  | zero => rfl
  | succ k ih => simp [beBytes, ih]

/-- The `k`-byte encoding of `n` as an array. -/
def beVector (k n : ℕ) : Vector UInt8 k := ⟨(beBytes k n).toArray, by simp⟩

theorem beNat_lt (l : Bytes) : beNat l < 256 ^ l.length := by
  induction l with
  | nil => simp [beNat]
  | cons b l ih =>
      have hb : b.toNat < 256 := b.toNat_lt
      have hmul : b.toNat * 256 ^ l.length ≤ 255 * 256 ^ l.length :=
        Nat.mul_le_mul_right _ (by omega)
      have hpow : 256 ^ (l.length + 1) = 255 * 256 ^ l.length + 256 ^ l.length := by ring
      simp only [beNat, List.length_cons, hpow]
      omega

theorem beNat_beBytes_mod (k n : ℕ) : beNat (beBytes k n) = n % 256 ^ k := by
  induction k with
  | zero => simp [beBytes, beNat, Nat.mod_one]
  | succ k ih =>
      have hsplit : n % 256 ^ (k + 1) = n % 256 ^ k + 256 ^ k * (n / 256 ^ k % 256) := by
        rw [pow_succ, Nat.mod_mul]
      simp only [beBytes, beNat, beBytes_length, ih, hsplit, UInt8.toNat_ofNat']
      ring

theorem beNat_beBytes {k n : ℕ} (h : n < 256 ^ k) : beNat (beBytes k n) = n := by
  rw [beNat_beBytes_mod, Nat.mod_eq_of_lt h]

theorem beBytes_add_mul (k n m : ℕ) : beBytes k (m * 256 ^ k + n) = beBytes k n := by
  induction k generalizing m with
  | zero => rfl
  | succ k ih =>
      have hk : m * 256 ^ (k + 1) + n = m * 256 * 256 ^ k + n := by ring
      have hpos : 0 < 256 ^ k := Nat.pow_pos (by decide)
      simp only [beBytes, hk, ih]
      rw [Nat.add_comm, Nat.add_mul_div_right _ _ hpos]
      congr 1
      apply UInt8.toNat_inj.mp
      simp only [UInt8.toNat_ofNat']
      omega

theorem beBytes_beNat (l : Bytes) : beBytes l.length (beNat l) = l := by
  induction l with
  | nil => rfl
  | cons b l ih =>
      have hpos : 0 < 256 ^ l.length := Nat.pow_pos (by decide)
      have hhead : (b.toNat * 256 ^ l.length + beNat l) / 256 ^ l.length = b.toNat := by
        rw [Nat.add_comm, Nat.add_mul_div_right _ _ hpos, Nat.div_eq_of_lt (beNat_lt l)]
        omega
      simp only [List.length_cons, beBytes, beNat, hhead, beBytes_add_mul, ih]
      simp

theorem beBytes_inj {k n m : ℕ} (hn : n < 256 ^ k) (hm : m < 256 ^ k)
    (h : beBytes k n = beBytes k m) : n = m := by
  rw [← beNat_beBytes hn, ← beNat_beBytes hm, h]

/-- Byte-wise exclusive or, as long as the shorter argument. -/
def xorBytes (a b : Bytes) : Bytes := List.zipWith (· ^^^ ·) a b

theorem xor_left_cancel {a b c : UInt8} (h : a ^^^ b = a ^^^ c) : b = c := by
  have h' : a ^^^ (a ^^^ b) = a ^^^ (a ^^^ c) := by rw [h]
  simpa [← UInt8.xor_assoc] using h'

@[simp] theorem xorBytes_length (a b : Bytes) :
    (xorBytes a b).length = min a.length b.length := by
  simp [xorBytes]

/-- Adding the same pad twice gives the text back. -/
theorem xorBytes_xorBytes {text pad : Bytes} (h : text.length = pad.length) :
    xorBytes (xorBytes text pad) pad = text := by
  induction pad generalizing text with
  | nil => rw [List.length_eq_zero_iff.mp h]; rfl
  | cons p pad ih =>
      obtain ⟨x, text, rfl⟩ := List.exists_cons_of_length_eq_add_one h
      have htail := ih (by simpa using h)
      simp only [xorBytes, List.zipWith_cons_cons] at htail ⊢
      rw [htail, UInt8.xor_assoc, UInt8.xor_self, UInt8.xor_zero]

theorem xorBytes_inj {pad a b : Bytes} (ha : a.length = pad.length)
    (hb : b.length = pad.length) (h : xorBytes pad a = xorBytes pad b) : a = b := by
  induction pad generalizing a b with
  | nil =>
      rw [List.length_eq_zero_iff.mp ha, List.length_eq_zero_iff.mp hb]
  | cons p pad ih =>
      obtain ⟨x, a, rfl⟩ := List.exists_cons_of_length_eq_add_one ha
      obtain ⟨y, b, rfl⟩ := List.exists_cons_of_length_eq_add_one hb
      simp only [xorBytes, List.zipWith_cons_cons, List.cons.injEq] at h
      have htail := ih (by simpa using ha) (by simpa using hb) h.2
      rw [xor_left_cancel h.1, htail]

end ByteString
