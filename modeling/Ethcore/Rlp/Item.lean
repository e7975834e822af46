import Ethcore.Lib.BigEndian

/-!
# RLP items and their Yellow Paper encoding

The recursive length prefix encoding of appendix B of the Yellow Paper, stated over item
trees: an item is a byte string or a list of items.  This is the abstract side of the
package `rlp`: `Item` is what `decodeInterface` builds (`[]byte` for strings,
`[]interface{}` for lists), and `Item.encode` is what the writers of `encode.go` and the
readers of `decode.go` are proved against.

* `lengthPrefix o n` is the header of a payload of `n` bytes with tag offset `o`
  (`0x80` for strings, `0xC0` for lists): one byte below 56, else the byte
  `o + 55 + |BE(n)|` followed by the minimal big-endian length `BE(n)`.
* `Item.encode` is `R_b` on strings (a single byte below `0x80` is its own encoding) and
  `R_l` on lists.
* `Item.Fits` says that every payload length fits the eight-byte length field, which
  every Go value satisfies since slice lengths are machine integers.
-/

namespace Ethcore

/-- Go's `[]byte`. -/
abbrev Bytes := List UInt8

namespace Rlp

/-- An RLP item: a byte string, or a list of items. -/
inductive Item where
  | bytes (b : Bytes)
  | list (items : List Item)
  deriving Inhabited

/-- The Yellow Paper header of a payload of `size` bytes, for tag offset `offset`
(`0x80` for strings, `0xC0` for lists). -/
def lengthPrefix (offset : UInt8) (size : Nat) : Bytes :=
  if size < 56 then [offset + UInt8.ofNat size]
  else (offset + 55 + UInt8.ofNat (BigEndian.minimal size).length) :: BigEndian.minimal size

/-- `R_b`: a single byte below `0x80` stands for itself, anything else gets a string
header. -/
def encodeBytes : Bytes → Bytes
  | [b] => if b < 0x80 then [b] else lengthPrefix 0x80 1 ++ [b]
  | b => lengthPrefix 0x80 b.length ++ b

mutual
/-- The Yellow Paper encoding of an item. -/
def Item.encode : Item → Bytes
  | .bytes b => encodeBytes b
  | .list xs => lengthPrefix 0xC0 (Item.encodeAll xs).length ++ Item.encodeAll xs

/-- The concatenated encodings of a list of items: the payload of a list. -/
def Item.encodeAll : List Item → Bytes
  | [] => []
  | x :: xs => x.encode ++ Item.encodeAll xs
end

mutual
/-- Every string and every list payload of the item is shorter than `2 ^ 64` bytes, so
that its length fits the eight-byte length field. -/
def Item.Fits : Item → Prop
  | .bytes b => b.length < 2 ^ 64
  | .list xs => (Item.encodeAll xs).length < 2 ^ 64 ∧ Item.FitsAll xs

/-- Every item of the list fits. -/
def Item.FitsAll : List Item → Prop
  | [] => True
  | x :: xs => x.Fits ∧ Item.FitsAll xs
end

@[simp] theorem encode_bytes (b : Bytes) : (Item.bytes b).encode = encodeBytes b := rfl

@[simp] theorem encode_list (xs : List Item) :
    (Item.list xs).encode = lengthPrefix 0xC0 (Item.encodeAll xs).length ++ Item.encodeAll xs := rfl

@[simp] theorem encodeAll_nil : Item.encodeAll [] = [] := rfl

@[simp] theorem encodeAll_cons (x : Item) (xs : List Item) :
    Item.encodeAll (x :: xs) = x.encode ++ Item.encodeAll xs := rfl

@[simp] theorem fits_bytes (b : Bytes) : (Item.bytes b).Fits ↔ b.length < 2 ^ 64 := Iff.rfl

@[simp] theorem fits_list (xs : List Item) :
    (Item.list xs).Fits ↔ (Item.encodeAll xs).length < 2 ^ 64 ∧ Item.FitsAll xs := Iff.rfl

@[simp] theorem fitsAll_nil : Item.FitsAll [] := trivial

@[simp] theorem fitsAll_cons (x : Item) (xs : List Item) :
    Item.FitsAll (x :: xs) ↔ x.Fits ∧ Item.FitsAll xs := Iff.rfl

theorem length_lengthPrefix (offset : UInt8) (size : Nat) :
    (lengthPrefix offset size).length =
      if size < 56 then 1 else (BigEndian.minimal size).length + 1 := by
  unfold lengthPrefix
  split <;> simp

theorem lengthPrefix_pos (offset : UInt8) (size : Nat) : 0 < (lengthPrefix offset size).length := by
  rw [length_lengthPrefix]
  split <;> omega

/-- A header never needs more than nine bytes for a payload that fits. -/
theorem length_lengthPrefix_le (offset : UInt8) (size : Nat) (h : size < 2 ^ 64) :
    (lengthPrefix offset size).length ≤ 9 := by
  rw [length_lengthPrefix]
  split
  · omega
  · have : (BigEndian.minimal size).length ≤ 8 :=
      (BigEndian.length_minimal_le_iff size 8).mpr (by simpa using h)
    omega

/-- An encoding is never empty. -/
theorem encode_ne_nil (v : Item) : v.encode ≠ [] := by
  cases v with
  | bytes b =>
      unfold Item.encode encodeBytes
      split
      · split <;> simp
      · simp [lengthPrefix]; split <;> simp
  | list xs => simp [lengthPrefix]; split <;> simp

/-- `R_b` in its two cases: a single byte below `0x80` is itself; anything else is a string
header followed by the contents. -/
theorem encodeBytes_cases (b : Bytes) :
    (∃ c, b = [c] ∧ c < 0x80 ∧ encodeBytes b = [c]) ∨
    (¬(b.length = 1 ∧ b.headD 0 < 0x80) ∧ encodeBytes b = lengthPrefix 0x80 b.length ++ b) := by
  match b with
  | [c] =>
      by_cases hc : c < 0x80
      · exact .inl ⟨c, rfl, hc, by simp [encodeBytes, hc]⟩
      · exact .inr ⟨by simp [hc], by simp [encodeBytes, hc]⟩
  | [] => exact .inr ⟨by simp, rfl⟩
  | _ :: _ :: _ => exact .inr ⟨by simp, rfl⟩

/-- Every item of a list takes at least one byte of its payload. -/
theorem length_le_length_encodeAll (xs : List Item) : xs.length ≤ (Item.encodeAll xs).length := by
  induction xs with
  | nil => simp
  | cons x xs ih =>
      have hx := List.length_pos_of_ne_nil (encode_ne_nil x)
      simp only [List.length_cons, encodeAll_cons, List.length_append]
      omega

theorem length_encode_le_of_mem {x : Item} {xs : List Item} (h : x ∈ xs) :
    x.encode.length ≤ (Item.encodeAll xs).length := by
  induction xs with
  | nil => simp at h
  | cons y ys ih =>
      simp only [encodeAll_cons, List.length_append]
      rcases List.mem_cons.mp h with rfl | h
      · omega
      · have := ih h
        omega

theorem length_encodeAll_lt (xs : List Item) :
    (Item.encodeAll xs).length < (Item.list xs).encode.length := by
  have := lengthPrefix_pos 0xC0 (Item.encodeAll xs).length
  simp only [encode_list, List.length_append]
  omega

theorem encodeAll_eq_nil_iff (xs : List Item) : Item.encodeAll xs = [] ↔ xs = [] := by
  cases xs with
  | nil => simp
  | cons x xs => simp [encode_ne_nil x]

theorem fits_of_mem {x : Item} {xs : List Item} (h : Item.FitsAll xs) (hx : x ∈ xs) : x.Fits := by
  induction xs with
  | nil => simp at hx
  | cons y ys ih =>
      rw [fitsAll_cons] at h
      rcases List.mem_cons.mp hx with rfl | hx
      · exact h.1
      · exact ih h.2 hx

end Rlp
end Ethcore
