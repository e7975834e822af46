import Ethcore.Rlp.Item

/-!
# The `encbuf` writer of `encode.go`

The encoder does not write list headers inline.  It appends all string data to `str`,
records for every list a `listhead` holding the offset where its header belongs and,
once the list is closed, the size of its encoded content; `lhsize` counts the bytes of
the headers recorded so far.  `toBytes` splices the headers into the string data at the
end.

This module models that buffer and the writers `EncodeToBytes` uses for an item tree
(`writeBytes` for `[]byte`, the slice writer for `[]interface{}`, and `writeInterface`
between them), and proves that the spliced output is the Yellow Paper encoding
(`EncodeToBytes_eq_encode`).  The proof describes the buffer a writer leaves behind by
three pure functions of the item (`Item.strData`, `Item.heads`, `Item.hdrSize`) and then
shows that splicing those heads into that string data yields `Item.encode`.

A Go `listhead` is reached through a pointer; here the pointer is its index in
`lheads`.  Go sizes are `int` and `uint64`; they are naturals here, and the writers are
only claimed correct for items whose lengths fit eight bytes (`Item.Fits`).
-/

namespace Ethcore
namespace Rlp

/-- `putint`: `i` in big-endian order in the least number of bytes, at least one. -/
def putint (i : Nat) : Bytes :=
  let size :=
    if i < 2 ^ 8 then 1 else if i < 2 ^ 16 then 2 else if i < 2 ^ 24 then 3
    else if i < 2 ^ 32 then 4 else if i < 2 ^ 40 then 5 else if i < 2 ^ 48 then 6
    else if i < 2 ^ 56 then 7 else 8
  BigEndian.fixed size i

/-- `intsize`: the minimum number of bytes required to store `i`. -/
def intsize (i : Nat) : Nat :=
  if i >>> 8 = 0 then 1 else intsize (i >>> 8) + 1
termination_by i
decreasing_by
  rw [Nat.shiftRight_eq_div_pow]
  rename_i h
  rw [Nat.shiftRight_eq_div_pow] at h
  exact Nat.div_lt_self (Nat.pos_of_ne_zero (fun h0 => h (by simp [h0]))) (by norm_num)

/-- `headsize`: the size of a list or string header for a payload of `size` bytes. -/
def headsize (size : Nat) : Nat :=
  if size < 56 then 1 else 1 + intsize size

/-- `puthead`: a list or string header for a payload of `size` bytes. -/
def puthead (smalltag largetag : UInt8) (size : Nat) : Bytes :=
  if size < 56 then [smalltag + UInt8.ofNat size]
  else
    let sizesize := putint size
    (largetag + UInt8.ofNat sizesize.length) :: sizesize

/-- `listhead`: the index of a list header in the string data and the size of the list's
encoded content (including nested headers). -/
structure ListHead where
  offset : Nat
  size : Nat

/-- `listhead.encode`: the header bytes of a recorded list. -/
def ListHead.encode (head : ListHead) : Bytes :=
  puthead 0xC0 0xF7 head.size

/-- `encbuf`: string data, the recorded list headers and the sum of their sizes. -/
structure Encbuf where
  str : Bytes
  lheads : List ListHead
  lhsize : Nat

namespace Encbuf

/-- The buffer `reset` leaves behind: no data and no headers. -/
def empty : Encbuf :=
  ⟨[], [], 0⟩

/-- `Write`: append raw bytes to the string data. -/
def Write (w : Encbuf) (b : Bytes) : Encbuf :=
  { w with str := w.str ++ b }

/-- `size`: the length of the final output, headers included. -/
def size (w : Encbuf) : Nat :=
  w.str.length + w.lhsize

/-- `encodeStringHeader`. -/
def encodeStringHeader (w : Encbuf) (size : Nat) : Encbuf :=
  if size < 56 then w.Write [0x80 + UInt8.ofNat size]
  else
    let sizesize := putint size
    w.Write ((0xB7 + UInt8.ofNat sizesize.length) :: sizesize)

/-- `encodeString`: a single byte up to `0x7F` is written bare, anything else after a
string header. -/
def encodeString (w : Encbuf) (b : Bytes) : Encbuf :=
  match b with
  | [c] => if c ≤ 0x7F then w.Write [c] else (w.encodeStringHeader 1).Write [c]
  | _ => (w.encodeStringHeader b.length).Write b

/-- `list`: record a header at the current end of the string data, remembering the
current `lhsize` in its size field; the result is the pointer to it. -/
def list (w : Encbuf) : Nat × Encbuf :=
  (w.lheads.length, { w with lheads := w.lheads ++ [⟨w.str.length, w.lhsize⟩] })

/-- `listEnd`: fix the recorded header's content size and account for its own size. -/
def listEnd (w : Encbuf) (lh : Nat) : Encbuf :=
  let head := w.lheads.getD lh ⟨0, 0⟩
  let size := w.size - head.offset - head.size
  { w with
    lheads := w.lheads.set lh { head with size := size }
    lhsize := if size < 56 then w.lhsize + 1 else w.lhsize + (1 + intsize size) }

/-- The loop of `toBytes`: copy the string data up to each header, then the header. -/
def spliceHeads (str : Bytes) (strpos : Nat) : List ListHead → Bytes
  | [] => str.drop strpos
  | head :: heads =>
      (str.drop strpos).take (head.offset - strpos) ++ head.encode ++
        spliceHeads str head.offset heads

/-- `toBytes`: the string data with every recorded header spliced in. -/
def toBytes (w : Encbuf) : Bytes :=
  spliceHeads w.str 0 w.lheads

end Encbuf

/-- `writeBytes`, the writer of `[]byte`. -/
def writeBytes (b : Bytes) (w : Encbuf) : Encbuf :=
  w.encodeString b

mutual
/-- `writeInterface` on the dynamic values `decodeInterface` produces: `[]byte` goes to
`writeBytes`, `[]interface{}` to the slice writer, which opens a list, writes every
element through `writeInterface` and closes the list. -/
def writeInterface : Item → Encbuf → Encbuf
  | .bytes b, w => writeBytes b w
  | .list xs, w =>
      let (lh, w) := w.list
      (writeElems xs w).listEnd lh

/-- The element loop of the slice writer. -/
def writeElems : List Item → Encbuf → Encbuf
  | [], w => w
  | x :: xs, w => writeElems xs (writeInterface x w)
end

/-- `EncodeToBytes` on an item tree: write it into a fresh buffer, then splice. -/
def EncodeToBytes (v : Item) : Bytes :=
  (writeInterface v Encbuf.empty).toBytes

/-! ### Sizes and headers against the abstract layer -/

theorem putint_eq_minimal (i : Nat) (hpos : 0 < i) (hlt : i < 2 ^ 64) :
    putint i = BigEndian.minimal i := by
  unfold putint
  split_ifs <;>
    first
    | exact BigEndian.fixed_eq_minimal 0 i (by norm_num; omega) (by norm_num; omega)
    | exact BigEndian.fixed_eq_minimal 1 i (by norm_num; omega) (by norm_num; omega)
    | exact BigEndian.fixed_eq_minimal 2 i (by norm_num; omega) (by norm_num; omega)
    | exact BigEndian.fixed_eq_minimal 3 i (by norm_num; omega) (by norm_num; omega)
    | exact BigEndian.fixed_eq_minimal 4 i (by norm_num; omega) (by norm_num; omega)
    | exact BigEndian.fixed_eq_minimal 5 i (by norm_num; omega) (by norm_num; omega)
    | exact BigEndian.fixed_eq_minimal 6 i (by norm_num; omega) (by norm_num; omega)
    | exact BigEndian.fixed_eq_minimal 7 i (by norm_num; omega) (by norm_num; omega)

theorem intsize_eq_length_minimal (i : Nat) (hpos : 0 < i) :
    intsize i = (BigEndian.minimal i).length := by
  induction i using Nat.strong_induction_on with
  | _ i ih =>
    rw [intsize, BigEndian.length_minimal, Nat.digits_def' (by norm_num) hpos,
      List.length_cons, Nat.shiftRight_eq_div_pow]
    split
    · rename_i h
      simp at h
      simp [Nat.div_eq_of_lt h]
    · rename_i h
      have hq : 0 < i / 2 ^ 8 := Nat.pos_of_ne_zero h
      rw [ih (i / 2 ^ 8) (Nat.div_lt_self hpos (by norm_num)) hq, BigEndian.length_minimal]
      rfl

theorem puthead_eq_lengthPrefix (offset : UInt8) (size : Nat) (h : size < 2 ^ 64) :
    puthead offset (offset + 55) size = lengthPrefix offset size := by
  unfold puthead lengthPrefix
  split
  · rfl
  · rename_i hge
    simp only
    rw [putint_eq_minimal size (by omega) h]

theorem headsize_eq_length (offset : UInt8) (size : Nat) :
    headsize size = (lengthPrefix offset size).length := by
  unfold headsize
  rw [length_lengthPrefix]
  split
  · rfl
  · rw [intsize_eq_length_minimal size (by omega)]
    omega

/-! ### What a writer leaves in the buffer -/

mutual
/-- The string data an item contributes: its encoding without list headers. -/
def Item.strData : Item → Bytes
  | .bytes b => encodeBytes b
  | .list xs => Item.strDataAll xs

/-- The string data of a sequence of items. -/
def Item.strDataAll : List Item → Bytes
  | [] => []
  | x :: xs => x.strData ++ Item.strDataAll xs
end

mutual
/-- The closed list headers an item records when its string data starts at offset `o`,
in the order `list` creates them (preorder). -/
def Item.heads : Item → Nat → List ListHead
  | .bytes _, _ => []
  | .list xs, o => ⟨o, (Item.encodeAll xs).length⟩ :: Item.headsAll xs o

/-- The headers a sequence of items records from offset `o` on. -/
def Item.headsAll : List Item → Nat → List ListHead
  | [], _ => []
  | x :: xs, o => x.heads o ++ Item.headsAll xs (o + x.strData.length)
end

mutual
/-- The bytes of list headers inside an item's encoding. -/
def Item.hdrSize : Item → Nat
  | .bytes _ => 0
  | .list xs => headsize (Item.encodeAll xs).length + Item.hdrSizeAll xs

/-- The bytes of list headers inside a sequence of encodings. -/
def Item.hdrSizeAll : List Item → Nat
  | [] => 0
  | x :: xs => x.hdrSize + Item.hdrSizeAll xs
end

mutual
/-- An encoding is its string data plus its list headers. -/
theorem length_encode : ∀ v : Item, v.encode.length = v.strData.length + v.hdrSize
  | .bytes b => by simp [Item.strData, Item.hdrSize]
  | .list xs => by
      have h := length_encodeAll xs
      simp only [encode_list, List.length_append, Item.strData, Item.hdrSize,
        ← headsize_eq_length 0xC0]
      omega

/-- A payload is the string data of its items plus their list headers. -/
theorem length_encodeAll :
    ∀ xs : List Item, (Item.encodeAll xs).length = (Item.strDataAll xs).length + Item.hdrSizeAll xs
  | [] => by simp [Item.strDataAll, Item.hdrSizeAll]
  | x :: xs => by
      have h1 := length_encode x
      have h2 := length_encodeAll xs
      simp only [encodeAll_cons, List.length_append, Item.strDataAll, Item.hdrSizeAll]
      omega
end

namespace Encbuf

@[simp] theorem Write_Write (w : Encbuf) (a b : Bytes) : (w.Write a).Write b = w.Write (a ++ b) := by
  simp [Write]

theorem encodeStringHeader_eq (w : Encbuf) (size : Nat) (h : size < 2 ^ 64) :
    w.encodeStringHeader size = w.Write (lengthPrefix 0x80 size) := by
  unfold encodeStringHeader
  rw [← puthead_eq_lengthPrefix 0x80 size h]
  unfold puthead
  split <;> rfl

theorem encodeString_eq (w : Encbuf) (b : Bytes) (h : b.length < 2 ^ 64) :
    w.encodeString b = w.Write (encodeBytes b) := by
  match b with
  | [] => simp [encodeString, encodeBytes, encodeStringHeader_eq w 0 (by norm_num)]
  | [c] =>
      have hc : c ≤ 0x7F ↔ c < 0x80 := by
        rw [UInt8.le_iff_toNat_le, UInt8.lt_iff_toNat_lt]
        simp only [UInt8.reduceToNat]
        omega
      by_cases hle : c ≤ 0x7F
      · simp [encodeString, encodeBytes, hle, hc.mp hle]
      · have hlt : ¬c < 0x80 := fun hlt => hle (hc.mpr hlt)
        simp [encodeString, encodeBytes, hle, hlt, encodeStringHeader_eq w 1 (by norm_num)]
  | c :: d :: rest =>
      simp only [encodeString, encodeBytes]
      rw [encodeStringHeader_eq w _ h, Write_Write]

/-- `listEnd` on the header at index `|pre|`: its size becomes the bytes written since it
was opened, minus the header sizes that were already counted then. -/
theorem listEnd_eq (w : Encbuf) (pre post : List ListHead) (o l : Nat)
    (hw : w.lheads = pre ++ ⟨o, l⟩ :: post) :
    w.listEnd pre.length =
      { w with
        lheads := pre ++ ⟨o, w.size - o - l⟩ :: post
        lhsize := w.lhsize + headsize (w.size - o - l) } := by
  have hget : w.lheads.getD pre.length ⟨0, 0⟩ = ⟨o, l⟩ := by
    simp [hw, List.getD_eq_getElem?_getD]
  unfold listEnd headsize
  rw [hget]
  simp only [hw, List.set_append_right _ _ (le_refl _), Nat.sub_self, List.set_cons_zero]
  split <;> simp

end Encbuf

theorem writeBytes_eq (b : Bytes) (w : Encbuf) (h : (Item.bytes b).Fits) :
    writeBytes b w = w.Write (Item.bytes b).strData := by
  rw [fits_bytes] at h
  simp [writeBytes, Encbuf.encodeString_eq w b h, Item.strData]

mutual
/-- **What `writeInterface` leaves behind.**  Writing an item appends its string data,
records its list headers (offsets relative to where its data starts) and adds the size of
those headers to `lhsize`. -/
theorem writeInterface_eq : ∀ (v : Item) (w : Encbuf), v.Fits →
    writeInterface v w =
      ⟨w.str ++ v.strData, w.lheads ++ v.heads w.str.length, w.lhsize + v.hdrSize⟩
  | .bytes b, w, h => by
      rw [writeInterface, writeBytes_eq b w h]
      simp [Encbuf.Write, Item.heads, Item.hdrSize]
  | .list xs, w, h => by
      rw [fits_list] at h
      have hxs := writeElems_eq xs
        { w with lheads := w.lheads ++ [⟨w.str.length, w.lhsize⟩] } h.2
      simp only [writeInterface, Encbuf.list, hxs]
      -- the header opened at index `|w.lheads|` still holds the `lhsize` of that moment
      rw [Encbuf.listEnd_eq _ w.lheads (Item.headsAll xs w.str.length) w.str.length w.lhsize
        (by simp)]
      have hsize : Encbuf.size ⟨w.str ++ Item.strDataAll xs,
          w.lheads ++ [⟨w.str.length, w.lhsize⟩] ++ Item.headsAll xs w.str.length,
          w.lhsize + Item.hdrSizeAll xs⟩ - w.str.length - w.lhsize = (Item.encodeAll xs).length := by
        simp only [Encbuf.size, List.length_append, length_encodeAll]
        omega
      rw [hsize]
      simp only [Encbuf.mk.injEq, true_and, Item.strData, Item.heads, Item.hdrSize]
      omega

/-- What the element loop of the slice writer leaves behind. -/
theorem writeElems_eq : ∀ (xs : List Item) (w : Encbuf), Item.FitsAll xs →
    writeElems xs w =
      ⟨w.str ++ Item.strDataAll xs, w.lheads ++ Item.headsAll xs w.str.length,
        w.lhsize + Item.hdrSizeAll xs⟩
  | [], w, _ => by simp [writeElems, Item.strDataAll, Item.headsAll, Item.hdrSizeAll]
  | x :: xs, w, h => by
      rw [fitsAll_cons] at h
      rw [writeElems, writeInterface_eq x w h.1, writeElems_eq xs _ h.2]
      simp [Item.strDataAll, Item.headsAll, Item.hdrSizeAll, Nat.add_assoc]
end

/-! ### Splicing the headers back in -/

namespace Encbuf

/-- The copy loop may be cut at any position up to the next header. -/
theorem spliceHeads_split (str : Bytes) (p q : Nat) (heads : List ListHead) (hpq : p ≤ q)
    (hq : ∀ head ∈ heads, q ≤ head.offset) :
    spliceHeads str p heads = (str.drop p).take (q - p) ++ spliceHeads str q heads := by
  have hdrop : (str.drop p).drop (q - p) = str.drop q := by
    rw [List.drop_drop]
    congr 1
    omega
  cases heads with
  | nil =>
      simp only [spliceHeads]
      rw [← hdrop, List.take_append_drop]
  | cons head heads =>
      have hhead : q ≤ head.offset := hq head (by simp)
      simp only [spliceHeads, ← List.append_assoc]
      congr 2
      rw [show head.offset - p = (q - p) + (head.offset - q) by omega, List.take_add, hdrop]

end Encbuf

mutual
/-- Every header an item records lies at or after the start of its data. -/
theorem offset_ge_of_mem_heads : ∀ (v : Item) (o : Nat), ∀ head ∈ v.heads o, o ≤ head.offset
  | .bytes _, _ => by simp [Item.heads]
  | .list xs, o => by
      intro head hmem
      simp only [Item.heads, List.mem_cons] at hmem
      rcases hmem with rfl | hmem
      · exact le_refl _
      · exact offset_ge_of_mem_headsAll xs o head hmem

/-- Every header a sequence of items records lies at or after the start of its data. -/
theorem offset_ge_of_mem_headsAll :
    ∀ (xs : List Item) (o : Nat), ∀ head ∈ Item.headsAll xs o, o ≤ head.offset
  | [], _ => by simp [Item.headsAll]
  | x :: xs, o => by
      intro head hmem
      simp only [Item.headsAll, List.mem_append] at hmem
      rcases hmem with hmem | hmem
      · exact offset_ge_of_mem_heads x o head hmem
      · have := offset_ge_of_mem_headsAll xs _ head hmem
        omega
end

mutual
/-- **Splicing an item's headers into its string data gives its encoding**, whatever
string data and headers surround it. -/
theorem spliceHeads_heads : ∀ (v : Item) (str : Bytes) (o : Nat) (rest : List ListHead),
    v.Fits → (∃ tail, str.drop o = v.strData ++ tail) →
    (∀ head ∈ rest, o + v.strData.length ≤ head.offset) →
    Encbuf.spliceHeads str o (v.heads o ++ rest) =
      v.encode ++ Encbuf.spliceHeads str (o + v.strData.length) rest
  | .bytes b, str, o, rest, _, ⟨tail, htail⟩, hrest => by
      simp only [Item.heads, List.nil_append]
      rw [Encbuf.spliceHeads_split str o _ rest (by omega) hrest, htail]
      simp [Item.strData]
  | .list xs, str, o, rest, hfits, htail, hrest => by
      rw [fits_list] at hfits
      have hhead : ListHead.encode ⟨o, (Item.encodeAll xs).length⟩ =
          lengthPrefix 0xC0 (Item.encodeAll xs).length := by
        rw [ListHead.encode, ← puthead_eq_lengthPrefix 0xC0 _ hfits.1]
        rfl
      simp only [Item.heads, List.cons_append, Encbuf.spliceHeads, Nat.sub_self, List.take_zero,
        List.nil_append, hhead, encode_list, List.append_assoc]
      rw [spliceHeads_headsAll xs str o rest hfits.2 htail hrest]
      rfl

/-- Splicing the headers of a sequence of items into its string data gives the
concatenated encodings. -/
theorem spliceHeads_headsAll : ∀ (xs : List Item) (str : Bytes) (o : Nat) (rest : List ListHead),
    Item.FitsAll xs → (∃ tail, str.drop o = Item.strDataAll xs ++ tail) →
    (∀ head ∈ rest, o + (Item.strDataAll xs).length ≤ head.offset) →
    Encbuf.spliceHeads str o (Item.headsAll xs o ++ rest) =
      Item.encodeAll xs ++ Encbuf.spliceHeads str (o + (Item.strDataAll xs).length) rest
  | [], str, o, rest, _, _, _ => by simp [Item.headsAll, Item.strDataAll]
  | x :: xs, str, o, rest, hfits, ⟨tail, htail⟩, hrest => by
      rw [fitsAll_cons] at hfits
      simp only [Item.strDataAll, List.append_assoc] at htail
      have hx : ∃ tail, str.drop o = x.strData ++ tail := ⟨_, htail⟩
      have hxs : ∃ tail, str.drop (o + x.strData.length) = Item.strDataAll xs ++ tail := by
        refine ⟨tail, ?_⟩
        rw [← List.drop_drop, htail, List.drop_left]
      have hrest' : ∀ head ∈ Item.headsAll xs (o + x.strData.length) ++ rest,
          o + x.strData.length ≤ head.offset := by
        intro head hmem
        rcases List.mem_append.mp hmem with hmem | hmem
        · exact offset_ge_of_mem_headsAll xs _ head hmem
        · have := hrest head hmem
          simp only [Item.strDataAll, List.length_append] at this
          omega
      simp only [Item.headsAll, List.append_assoc]
      rw [spliceHeads_heads x str o _ hfits.1 hx hrest',
        spliceHeads_headsAll xs str _ rest hfits.2 hxs (by
          intro head hmem
          have := hrest head hmem
          simp only [Item.strDataAll, List.length_append] at this
          omega)]
      simp [Item.strDataAll, Nat.add_assoc]
end

/-- **The encoder writes the Yellow Paper encoding**: for every item tree whose lengths
fit the length field, `EncodeToBytes` through `writeInterface`, `list`/`listEnd` and
`toBytes` produces `Item.encode`. -/
theorem EncodeToBytes_eq_encode (v : Item) (hv : v.Fits) : EncodeToBytes v = v.encode := by
  unfold EncodeToBytes Encbuf.toBytes
  rw [writeInterface_eq v _ hv]
  have h := spliceHeads_heads v v.strData 0 [] hv ⟨[], by simp⟩ (by simp)
  simpa [Encbuf.empty, Encbuf.spliceHeads] using h

end Rlp
end Ethcore
