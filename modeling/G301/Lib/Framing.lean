import G301.Lib.BigEndian

/-! # Frames of a byte string

A field at the front of a byte string can be cut off again if its width is fixed or if its
length is written before it: `toList_append_inj`, `beBytes_append_inj` and
`lengthPrefixed_append_inj` say that equal byte strings have equal first fields and equal
rests.  Field by field, a byte string built from such fields determines all of them.

`copyParts` writes parts one after the other into a buffer of a fixed size; `copyParts_eq`
says that parts which add up to that size fill it with their concatenation. -/

namespace ByteString

/-! ### Fields at the front -/

theorem toList_append_inj {n : ℕ} {v w : Vector UInt8 n} {rest rest' : Bytes}
    (h : v.toList ++ rest = w.toList ++ rest') : v = w ∧ rest = rest' := by
  obtain ⟨hvw, hrest⟩ := List.append_inj h (by simp)
  exact ⟨Vector.toList_inj.mp hvw, hrest⟩

theorem beBytes_append_inj {k n m : ℕ} (hn : n < 256 ^ k) (hm : m < 256 ^ k)
    {rest rest' : Bytes} (h : beBytes k n ++ rest = beBytes k m ++ rest') :
    n = m ∧ rest = rest' := by
  obtain ⟨hnm, hrest⟩ := List.append_inj h (by simp)
  exact ⟨beBytes_inj hn hm hnm, hrest⟩

/-- A value behind its length, which takes `k` bytes. -/
def lengthPrefixed (k : ℕ) (value : Bytes) : Bytes := beBytes k value.length ++ value

theorem lengthPrefixed_append_inj {k : ℕ} {a b rest rest' : Bytes} (ha : a.length < 256 ^ k)
    (hb : b.length < 256 ^ k) (h : lengthPrefixed k a ++ rest = lengthPrefixed k b ++ rest') :
    a = b ∧ rest = rest' := by
  unfold lengthPrefixed at h
  rw [List.append_assoc, List.append_assoc] at h
  obtain ⟨hlen, htail⟩ := beBytes_append_inj ha hb h
  exact List.append_inj htail hlen

theorem lengthPrefixed_inj {k : ℕ} {a b : Bytes} (ha : a.length < 256 ^ k)
    (hb : b.length < 256 ^ k) (h : lengthPrefixed k a = lengthPrefixed k b) : a = b := by
  have h : lengthPrefixed k a ++ [] = lengthPrefixed k b ++ [] := by rw [h]
  exact (lengthPrefixed_append_inj ha hb h).1

/-! ### Filling a buffer -/

/-- Copies a part to an offset of the buffer and moves the offset behind it; `none` if the part
does not fit. -/
def copyPart (state : Bytes × ℕ) (part : Bytes) : Option (Bytes × ℕ) :=
  let (buffer, offset) := state
  if offset + part.length ≤ buffer.length then
    some (buffer.take offset ++ part ++ buffer.drop (offset + part.length), offset + part.length)
  else none

def copyParts (buffer : Bytes) (offset : ℕ) (parts : List Bytes) : Option (Bytes × ℕ) :=
  parts.foldlM copyPart (buffer, offset)

theorem copyPart_append (front back part : Bytes) (h : part.length ≤ back.length) :
    copyPart (front ++ back, front.length) part =
      some (front ++ part ++ back.drop part.length, (front ++ part).length) := by
  have hfits : front.length + part.length ≤ (front ++ back).length := by
    rw [List.length_append]
    omega
  unfold copyPart
  dsimp only
  rw [if_pos hfits, List.take_left, List.length_append, ← List.drop_drop, List.drop_left]

/-- Parts that fit behind `front` overwrite what is there. -/
theorem copyParts_append (front back : Bytes) (parts : List Bytes)
    (h : parts.flatten.length ≤ back.length) :
    copyParts (front ++ back) front.length parts =
      some (front ++ parts.flatten ++ back.drop parts.flatten.length,
        (front ++ parts.flatten).length) := by
  induction parts generalizing front back with
  | nil => simp [copyParts]
  | cons part parts ih =>
      rw [List.flatten_cons, List.length_append] at h
      have hrest : parts.flatten.length ≤ (back.drop part.length).length := by
        rw [List.length_drop]
        omega
      have htail := ih (front ++ part) (back.drop part.length) hrest
      unfold copyParts at htail ⊢
      rw [List.foldlM_cons, copyPart_append front back part (by omega)]
      show parts.foldlM copyPart _ = _
      rw [htail, List.drop_drop, List.flatten_cons, List.append_assoc front,
        @List.length_append _ part]

/-- Parts that add up to the size of the buffer fill it. -/
theorem copyParts_eq (buffer : Bytes) (parts : List Bytes)
    (h : buffer.length = parts.flatten.length) :
    copyParts buffer 0 parts = some (parts.flatten, buffer.length) := by
  have hcopy := copyParts_append [] buffer parts (by omega)
  rw [List.drop_of_length_le (by omega)] at hcopy
  simpa [h] using hcopy

end ByteString
