import Ethcore.Rlp.Stream

/-!
# Splitting raw RLP: `raw.go`

The slice-level reader of the package: `readKind` reads a value's header from the front of
a byte slice, `Split` cuts the slice into the value's content and the rest, and
`CountValues` counts the values of a concatenation.  The trie's node decoder is built on
these.

Indexing past the end of a Go slice panics.  A function that can panic returns an
`Option`, with `none` for the panic.  `readKind` has one: the check that a one-byte string
is not below `0x80` reads `buf[1]` before anything checks that the buffer has two bytes,
so the input `0x81` alone panics (`readKind_lone_0x81`).

Results: what a successful `readKind` accepts (`readKind_ok`), that it moves at least one
byte (`readKind_progress`, which also makes `CountValues` terminate), and that
`readKind` panics on `0x81` alone and on nothing else (`readKind_eq_none_iff`).  So do
`Split` and its wrappers, while `CountValues` panics on every concatenation it reads followed
by a lone `0x81` (`Split_panics_iff`); what the readers return is a header of at most nine
bytes, the content and the rest (`Split_header_le`).  The
readers take back what the encoder writes: `Split` of an encoded item, with anything after
it, gives the item's kind, content and that rest (`Split_encode`), and `CountValues` of a
concatenation of encodings counts its items (`CountValues_encodeAll`).
-/

namespace Ethcore
namespace Rlp

/-- `readSize`: the big-endian length of `slen` bytes after a long-form tag.  Callers pass
`slen` from 1 to 8; the source's switch leaves `s = 0` for any other value.  The byte
`b[0]` is read only once `s ≥ 56`, when `slen ≥ 1 ≤ len(b)`. -/
def readSize (b : Bytes) (slen : Nat) : Except Error Nat :=
  if slen > b.length then .error .ioErrUnexpectedEOF
  else
    let s := if slen ≤ 8 then BigEndian.value (b.take slen) else 0
    -- Reject sizes < 56 (shouldn't have separate size) and sizes with leading zero bytes.
    if s < 56 ∨ b.headD 0 = 0 then .error .ErrCanonSize else .ok s

/-- The switch of `readKind` on the tag byte `b`, with `rest` the bytes after it: the kind,
the tag size and the content size.  `none` is the panic of reading `buf[1]` when the tag
`0x81` ends the buffer. -/
def readKindTag (b : UInt8) (rest : Bytes) : Option (Except Error (Kind × Nat × Nat)) :=
  if b < 0x80 then some (.ok (.Byte, 0, 1))
  else if b < 0xB8 then
    if (b - 0x80).toNat = 1 then
      -- Reject strings that should've been single bytes: this reads `buf[1]`.
      match rest with
      | [] => none
      | c :: _ => if c < 128 then some (.error .ErrCanonSize) else some (.ok (.String, 1, 1))
    else some (.ok (.String, 1, (b - 0x80).toNat))
  else if b < 0xC0 then
    some ((readSize rest (b - 0xB7).toNat).map fun size => (.String, (b - 0xB7).toNat + 1, size))
  else if b < 0xF8 then some (.ok (.List, 1, (b - 0xC0).toNat))
  else
    some ((readSize rest (b - 0xF7).toNat).map fun size => (.List, (b - 0xF7).toNat + 1, size))

/-- `readKind`: the kind, tag size and content size of the value at the front of `buf`.
The last check compares with `len(buf) - tagsize` in `uint64`; the tag never exceeds the
buffer there (`readKindTag_ok`), so the subtraction does not wrap. -/
def readKind (buf : Bytes) : Option (Except Error (Kind × Nat × Nat)) :=
  match buf with
  | [] => some (.error .ioErrUnexpectedEOF)
  | b :: rest =>
      (readKindTag b rest).map fun r => r.bind fun (k, tagsize, contentsize) =>
        -- Reject values larger than the input slice.
        if contentsize > buf.length - tagsize then .error .ErrValueTooLarge
        else .ok (k, tagsize, contentsize)

/-- `Split`: the kind and content of the first value, and the bytes after it.  On an error
the source also returns `b` as the rest; no caller reads it. -/
def Split (b : Bytes) : Option (Except Error (Kind × Bytes × Bytes)) :=
  (readKind b).map fun r => r.map fun (k, ts, cs) => (k, (b.drop ts).take cs, b.drop (ts + cs))

/-- `SplitString`: the content of a string and the bytes after it. -/
def SplitString (b : Bytes) : Option (Except Error (Bytes × Bytes)) :=
  (Split b).map fun r => r.bind fun (k, content, rest) =>
    if k = .List then .error .ErrExpectedString else .ok (content, rest)

/-- `SplitList`: the content of a list and the bytes after it. -/
def SplitList (b : Bytes) : Option (Except Error (Bytes × Bytes)) :=
  (Split b).map fun r => r.bind fun (k, content, rest) =>
    if k ≠ .List then .error .ErrExpectedList else .ok (content, rest)

/-! ### What `readKind` accepts -/

theorem readSize_ok {b : Bytes} {slen s : Nat} (h : readSize b slen = .ok s) :
    slen ≤ b.length ∧ 56 ≤ s := by
  unfold readSize at h
  by_cases h1 : slen > b.length
  · rw [if_pos h1] at h
    cases h
  · rw [if_neg h1] at h
    dsimp only at h
    by_cases h2 : (if slen ≤ 8 then BigEndian.value (b.take slen) else 0) < 56 ∨ b.headD 0 = 0
    · rw [if_pos h2] at h
      cases h
    · rw [if_neg h2] at h
      cases h
      simp only [not_or] at h2
      exact ⟨by omega, by omega⟩

/-- A tag read without error fits the buffer: a `Byte` is its own one-byte content with no
tag, anything else has a tag. -/
theorem readKindTag_ok {b : UInt8} {rest : Bytes} {k : Kind} {ts cs : Nat}
    (h : readKindTag b rest = some (.ok (k, ts, cs))) :
    ts ≤ rest.length + 1 ∧ (k = .Byte ∧ ts = 0 ∧ cs = 1 ∨ k ≠ .Byte ∧ 1 ≤ ts) := by
  unfold readKindTag at h
  split_ifs at h with c1 c2 c3 c4 c5
  · cases h
    simp
  · split at h
    · cases h
    · split_ifs at h <;> cases h
      simp
  · cases h
    simp
  · rcases hs : readSize rest (b - 0xB7).toNat with e | size <;> rw [hs] at h <;> cases h
    have := (readSize_ok hs).1
    refine ⟨by omega, .inr ⟨by simp, by omega⟩⟩
  · cases h
    simp
  · rcases hs : readSize rest (b - 0xF7).toNat with e | size <;> rw [hs] at h <;> cases h
    have := (readSize_ok hs).1
    refine ⟨by omega, .inr ⟨by simp, by omega⟩⟩

/-- A successful `readKind` is its tag's reading, with the content within the buffer. -/
theorem readKind_cons_ok {b : UInt8} {rest : Bytes} {k : Kind} {ts cs : Nat}
    (h : readKind (b :: rest) = some (.ok (k, ts, cs))) :
    readKindTag b rest = some (.ok (k, ts, cs)) ∧ ¬ cs > rest.length + 1 - ts := by
  dsimp only [readKind] at h
  rcases ht : readKindTag b rest with _ | (e | ⟨k', ts', cs'⟩) <;> rw [ht] at h
  · cases h
  · cases h
  · simp only [Option.map_some, Except.bind, Option.some.injEq] at h
    split_ifs at h with hlt
    cases h
    exact ⟨rfl, hlt⟩

/-- **What a successful `readKind` accepts**: a header of `tagsize` bytes and `contentsize`
bytes of content, both within the buffer, and at least one byte in all. -/
theorem readKind_ok {buf : Bytes} {k : Kind} {ts cs : Nat}
    (h : readKind buf = some (.ok (k, ts, cs))) :
    ts + cs ≤ buf.length ∧ (k = .Byte ∧ ts = 0 ∧ cs = 1 ∨ k ≠ .Byte ∧ 1 ≤ ts) := by
  match buf, h with
  | b :: rest, h =>
      obtain ⟨ht, hlt⟩ := readKind_cons_ok h
      obtain ⟨hts, hk⟩ := readKindTag_ok ht
      simp only [List.length_cons]
      exact ⟨by omega, hk⟩

/-- Every value `readKind` accepts takes at least one byte. -/
theorem readKind_progress {buf : Bytes} {k : Kind} {ts cs : Nat}
    (h : readKind buf = some (.ok (k, ts, cs))) : 0 < ts + cs := by
  rcases (readKind_ok h).2 with ⟨-, -, rfl⟩ | ⟨-, h1⟩ <;> omega

/-- **What `Split` returns**: the buffer is a header, the content and the rest; a `Byte`
has no header and is its own content. -/
theorem Split_ok {b content rest : Bytes} {k : Kind}
    (h : Split b = some (.ok (k, content, rest))) :
    ∃ hdr, b = hdr ++ content ++ rest ∧
      (k = .Byte ∧ hdr = [] ∧ content.length = 1 ∨ k ≠ .Byte ∧ 0 < hdr.length) := by
  unfold Split at h
  rcases hk : readKind b with _ | (e | ⟨k', ts, cs⟩) <;> rw [hk] at h
  · cases h
  · cases h
  · simp only [Option.map_some, Except.map, Option.some.injEq, Except.ok.injEq, Prod.mk.injEq] at h
    obtain ⟨rfl, rfl, rfl⟩ := h
    obtain ⟨hlen, hcases⟩ := readKind_ok hk
    refine ⟨b.take ts, ?_, ?_⟩
    · rw [List.append_assoc, ← List.drop_drop, List.take_append_drop, List.take_append_drop]
    · rcases hcases with ⟨rfl, rfl, rfl⟩ | ⟨hne, hts⟩
      · refine .inl ⟨rfl, by simp, ?_⟩
        simp
        omega
      · exact .inr ⟨hne, by simp; omega⟩

theorem Split_rest_lt {b content rest : Bytes} {k : Kind}
    (h : Split b = some (.ok (k, content, rest))) : rest.length < b.length := by
  obtain ⟨hdr, rfl, hcases⟩ := Split_ok h
  simp only [List.length_append]
  rcases hcases with ⟨-, -, h1⟩ | ⟨-, h1⟩ <;> omega

theorem SplitString_ok {b content rest : Bytes} (h : SplitString b = some (.ok (content, rest))) :
    ∃ k, k ≠ .List ∧ Split b = some (.ok (k, content, rest)) := by
  unfold SplitString at h
  rcases hs : Split b with _ | (e | ⟨k, c, r⟩) <;> rw [hs] at h
  · cases h
  · cases h
  · simp only [Option.map_some, Except.bind, Option.some.injEq] at h
    split_ifs at h with hk
    cases h
    exact ⟨k, hk, rfl⟩

theorem SplitList_ok {b content rest : Bytes} (h : SplitList b = some (.ok (content, rest))) :
    Split b = some (.ok (.List, content, rest)) := by
  unfold SplitList at h
  rcases hs : Split b with _ | (e | ⟨k, c, r⟩) <;> rw [hs] at h
  · cases h
  · cases h
  · simp only [Option.map_some, Except.bind, Option.some.injEq] at h
    split_ifs at h with hk
    cases h
    simp only [ne_eq, Decidable.not_not] at hk
    rw [hk]

/-- The content of a list is shorter than the buffer it was split from. -/
theorem SplitList_content_lt {b content rest : Bytes}
    (h : SplitList b = some (.ok (content, rest))) : content.length < b.length := by
  obtain ⟨hdr, rfl, hcases⟩ := Split_ok (SplitList_ok h)
  simp only [List.length_append]
  rcases hcases with ⟨h1, -⟩ | ⟨-, h1⟩
  · cases h1
  · omega

/-- `CountValues`: the number of values in a concatenation.  The source returns a count of
`0` with its error; `decodeNode` reads that count. -/
def CountValues (b : Bytes) : Option (Except Error Nat) :=
  match hb : b with
  | [] => some (.ok 0)
  | _ :: _ =>
      match h : readKind b with
      | none => none
      | some (.error err) => some (.error err)
      | some (.ok (_, tagsize, size)) =>
          (CountValues (b.drop (tagsize + size))).map (·.map (· + 1))
termination_by b.length
decreasing_by
  have := readKind_progress h
  simp only [List.length_drop, hb, List.length_cons]
  have := (readKind_ok h).1
  simp only [hb, List.length_cons] at this
  omega

@[simp] theorem CountValues_nil : CountValues [] = some (.ok 0) := by
  rw [CountValues]

/-- `CountValues` past the first value `readKind` accepts. -/
theorem CountValues_of_readKind {b : Bytes} {k : Kind} {ts cs : Nat}
    (h : readKind b = some (.ok (k, ts, cs))) :
    CountValues b = (CountValues (b.drop (ts + cs))).map (·.map (· + 1)) := by
  cases b with
  | nil => simp [readKind] at h
  | cons x xs =>
      rw [CountValues]
      split
      · next heq => rw [h] at heq; cases heq
      · next heq => rw [h] at heq; cases heq
      · next heq => rw [h] at heq; cases heq; rfl

theorem CountValues_of_readKind_none {b : Bytes} (h : readKind b = none) : CountValues b = none := by
  cases b with
  | nil => simp [readKind] at h
  | cons x xs =>
      rw [CountValues]
      split
      · rfl
      · next heq => rw [h] at heq; cases heq
      · next heq => rw [h] at heq; cases heq

theorem CountValues_of_readKind_error {x : UInt8} {xs : Bytes} {e : Error}
    (h : readKind (x :: xs) = some (.error e)) : CountValues (x :: xs) = some (.error e) := by
  rw [CountValues]
  split
  · next heq => rw [h] at heq; cases heq
  · next heq => rw [h] at heq; cases heq; rfl
  · next heq => rw [h] at heq; cases heq

/-- `readKindTag` panics exactly on the tag `0x81` with nothing after it. -/
theorem readKindTag_eq_none_iff (b : UInt8) (rest : Bytes) :
    readKindTag b rest = none ↔ b = 0x81 ∧ rest = [] := by
  constructor
  · intro h
    unfold readKindTag at h
    split_ifs at h with c1 c2 c3
    · split at h
      · refine ⟨?_, rfl⟩
        rw [UInt8.lt_iff_toNat_lt] at c1 c2
        rw [UInt8.toNat_sub_of_le _ _ (by rw [UInt8.le_iff_toNat_le]; simp at c1 ⊢; omega)] at c3
        apply UInt8.toNat_inj.mp
        simp at c1 c2 c3 ⊢
        omega
      · split_ifs at h
  · rintro ⟨rfl, rfl⟩
    decide

/-- `readKind` panics exactly on the one-byte buffer `0x81`. -/
theorem readKind_eq_none_iff (buf : Bytes) : readKind buf = none ↔ buf = [0x81] := by
  cases buf with
  | nil => simp [readKind]
  | cons b rest =>
      simp only [readKind, Option.map_eq_none_iff, readKindTag_eq_none_iff, List.cons.injEq]

theorem readKind_lone_0x81 : readKind [0x81] = none := by
  decide

/-! ### Where the readers panic

`Split` and its wrappers panic exactly where `readKind` does.  `CountValues` calls `readKind`
on what is left after each value, so any concatenation it reads, followed by a lone `0x81`,
panics (`CountValues_append_lone_0x81`).  What the readers return otherwise is a header of
at most nine bytes, the content and the rest (`Split_header_le`). -/

/-- A size is at most eight bytes: for a longer `slen` the source's switch leaves `s = 0`,
which is below `56`. -/
theorem readSize_ok_slen_le {b : Bytes} {slen s : Nat} (h : readSize b slen = .ok s) :
    slen ≤ 8 := by
  by_contra hlong
  have hlen := (readSize_ok h).1
  unfold readSize at h
  rw [if_neg (by omega)] at h
  dsimp only at h
  rw [if_neg hlong, if_pos (.inl (by decide))] at h
  cases h

/-- `readSize` reads only its `slen` bytes. -/
theorem readSize_append {b : Bytes} {slen : Nat} (hslen : slen ≤ b.length) (s : Bytes) :
    readSize (b ++ s) slen = readSize b slen := by
  cases b with
  | nil =>
      -- no size bytes: the size read is `0` on both sides
      obtain rfl : slen = 0 := by simpa using hslen
      simp [readSize]
  | cons c t =>
      have h1 : ¬ slen > (c :: t ++ s).length := by
        simp only [List.cons_append, List.length_cons, List.length_append] at hslen ⊢
        omega
      have h2 : ¬ slen > (c :: t).length := by omega
      unfold readSize
      rw [if_neg h1, if_neg h2, List.take_append_of_le_length hslen]
      rfl

/-- A header has at most nine bytes: a tag and at most eight size bytes. -/
theorem readKindTag_tagsize_le {b : UInt8} {rest : Bytes} {k : Kind} {ts cs : Nat}
    (h : readKindTag b rest = some (.ok (k, ts, cs))) : ts ≤ 9 := by
  unfold readKindTag at h
  split_ifs at h with c1 c2 c3 c4 c5
  · cases h
    omega
  · split at h
    · cases h
    · split_ifs at h <;> cases h
      omega
  · cases h
    omega
  · rcases hs : readSize rest (b - 0xB7).toNat with e | size <;> rw [hs] at h <;> cases h
    have := readSize_ok_slen_le hs
    omega
  · cases h
    omega
  · rcases hs : readSize rest (b - 0xF7).toNat with e | size <;> rw [hs] at h <;> cases h
    have := readSize_ok_slen_le hs
    omega

/-- A tag read without error reads the same with more bytes after the buffer. -/
theorem readKindTag_append {b : UInt8} {rest : Bytes} {r : Kind × Nat × Nat}
    (h : readKindTag b rest = some (.ok r)) (s : Bytes) :
    readKindTag b (rest ++ s) = some (.ok r) := by
  unfold readKindTag at h ⊢
  split_ifs at h ⊢ with c1 c2 c3 c4 c5
  · exact h
  · -- the one-byte string read `buf[1]`, which is still there
    cases rest with
    | nil => cases h
    | cons c t => exact h
  · exact h
  · rcases hs : readSize rest (b - 0xB7).toNat with e | size <;> rw [hs] at h
    · cases h
    · rw [readSize_append (readSize_ok hs).1, hs]
      exact h
  · exact h
  · rcases hs : readSize rest (b - 0xF7).toNat with e | size <;> rw [hs] at h
    · cases h
    · rw [readSize_append (readSize_ok hs).1, hs]
      exact h

/-- A value `readKind` accepts is read the same with more bytes after the buffer. -/
theorem readKind_append {buf : Bytes} {k : Kind} {ts cs : Nat}
    (h : readKind buf = some (.ok (k, ts, cs))) (s : Bytes) :
    readKind (buf ++ s) = some (.ok (k, ts, cs)) := by
  match buf, h with
  | b :: rest, h =>
      obtain ⟨ht, hlt⟩ := readKind_cons_ok h
      -- a longer buffer only loosens the size check
      have hle : ¬ cs > (b :: (rest ++ s)).length - ts := by
        simp only [List.length_cons, List.length_append]
        omega
      rw [List.cons_append]
      dsimp only [readKind]
      rw [readKindTag_append ht s]
      simp only [Option.map_some, Except.bind, hle, if_false]

/-- A header `readKind` accepts has at most nine bytes. -/
theorem readKind_tagsize_le {buf : Bytes} {k : Kind} {ts cs : Nat}
    (h : readKind buf = some (.ok (k, ts, cs))) : ts ≤ 9 := by
  match buf, h with
  | _ :: _, h => exact readKindTag_tagsize_le (readKind_cons_ok h).1

theorem Split_eq_none_iff (b : Bytes) : Split b = none ↔ b = [0x81] := by
  rw [Split, Option.map_eq_none_iff, readKind_eq_none_iff]

/-- Every concatenation `CountValues` reads panics once a lone `0x81` follows it. -/
theorem CountValues_append_lone_0x81 : ∀ (b : Bytes) {n : Nat}, CountValues b = some (.ok n) →
    CountValues (b ++ [0x81]) = none
  | [], _, _ => CountValues_of_readKind_none readKind_lone_0x81
  | x :: xs, n, h => by
      rcases hk : readKind (x :: xs) with _ | (e | ⟨k, ts, cs⟩)
      · rw [CountValues_of_readKind_none hk] at h
        cases h
      · rw [CountValues_of_readKind_error hk] at h
        cases h
      · -- the first value reads the same, and the lone byte follows the rest
        rw [CountValues_of_readKind hk] at h
        obtain ⟨m, hm⟩ : ∃ m, CountValues ((x :: xs).drop (ts + cs)) = some (.ok m) := by
          rcases hc : CountValues ((x :: xs).drop (ts + cs)) with _ | (e | m) <;>
            rw [hc] at h <;> cases h
          exact ⟨m, rfl⟩
        have hfit := (readKind_ok hk).1
        rw [CountValues_of_readKind (readKind_append hk _), List.drop_append_of_le_length hfit,
          CountValues_append_lone_0x81 _ hm, Option.map_none]
termination_by b => b.length
decreasing_by
  have := readKind_progress hk
  have := (readKind_ok hk).1
  simp only [List.length_drop, List.length_cons] at *
  omega

/-- The header `Split` cuts off has at most nine bytes. -/
theorem Split_header_le {b content rest : Bytes} {k : Kind}
    (h : Split b = some (.ok (k, content, rest))) :
    ∃ hdr, b = hdr ++ content ++ rest ∧ hdr.length ≤ 9 := by
  unfold Split at h
  rcases hk : readKind b with _ | (e | ⟨k', ts, cs⟩) <;> rw [hk] at h
  · cases h
  · cases h
  · simp only [Option.map_some, Except.map, Option.some.injEq, Except.ok.injEq, Prod.mk.injEq] at h
    obtain ⟨rfl, rfl, rfl⟩ := h
    refine ⟨b.take ts, ?_, ?_⟩
    · rw [List.append_assoc, ← List.drop_drop, List.take_append_drop, List.take_append_drop]
    · exact Nat.le_trans (List.length_take_le ts b) (readKind_tagsize_le hk)

/-- **The readers' panics**: `Split`, `SplitString` and `SplitList` panic on the lone byte
`0x81` and on no other input, and `CountValues` panics on every concatenation it reads
followed by a lone `0x81`. -/
theorem Split_panics_iff (b : Bytes) :
    (Split b = none ↔ b = [0x81]) ∧ (SplitString b = none ↔ b = [0x81]) ∧
      (SplitList b = none ↔ b = [0x81]) ∧
      ∀ n, CountValues b = some (.ok n) → CountValues (b ++ [0x81]) = none := by
  refine ⟨Split_eq_none_iff b, ?_, ?_, fun _ h => CountValues_append_lone_0x81 b h⟩
  · rw [SplitString, Option.map_eq_none_iff, Split_eq_none_iff]
  · rw [SplitList, Option.map_eq_none_iff, Split_eq_none_iff]

theorem Split_panics_iff_lone_0x81 : CountValues [0x81] = none :=
  (Split_panics_iff []).2.2.2 0 CountValues_nil

/-! ### Reading back what the encoder writes -/

/-- `readSize` reads back a long-form length. -/
theorem readSize_minimal {n : Nat} (hbig : 56 ≤ n) (hn : n < 2 ^ 64) (tail : Bytes) :
    readSize (BigEndian.minimal n ++ tail) (BigEndian.minimal n).length = .ok n := by
  have hlen : (BigEndian.minimal n).length ≤ 8 :=
    (BigEndian.length_minimal_le_iff n 8).mpr (by simpa using hn)
  have hhead : (BigEndian.minimal n ++ tail).headD 0 ≠ 0 := by
    rcases hm : BigEndian.minimal n with _ | ⟨b, rest⟩
    · simp at hm; omega
    · simpa using BigEndian.minimal_noLeadingZero n b rest hm
  unfold readSize
  simp only [List.length_append, gt_iff_lt, hlen, if_true, List.take_left', BigEndian.value_minimal]
  rw [if_neg (by omega), if_neg (not_or.mpr ⟨by omega, hhead⟩)]

/-- A tag byte compared with a constant, through its value. -/
theorem tag_lt_iff {t c : UInt8} {N : Nat} (ht : t.toNat = N) : t < c ↔ N < c.toNat := by
  rw [UInt8.lt_iff_toNat_lt, ht]

/-- A tag byte minus its base, through their values. -/
theorem toNat_tag_sub {t c : UInt8} {N : Nat} (ht : t.toNat = N) (hle : c.toNat ≤ N) :
    (t - c).toNat = N - c.toNat := by
  rw [UInt8.toNat_sub_of_le _ _ (by rw [UInt8.le_iff_toNat_le, ht]; exact hle), ht]

/-- `readKind` reads back a string or list header `lengthPrefix` writes, with its payload;
a one-byte string must not be a byte below `0x80`. -/
theorem readKind_lengthPrefix {o : UInt8} {k : Kind}
    (hok : (o = 0x80 ∧ k = .String) ∨ (o = 0xC0 ∧ k = .List)) {payload rest : Bytes}
    (hn : payload.length < 2 ^ 64)
    (hone : o = 0x80 → ∀ c, payload = [c] → 0x80 ≤ c) :
    readKind (lengthPrefix o payload.length ++ payload ++ rest) =
      some (.ok (k, (lengthPrefix o payload.length).length, payload.length)) := by
  have ho : o.toNat = 128 ∨ o.toNat = 192 := by
    rcases hok with ⟨rfl, -⟩ | ⟨rfl, -⟩ <;> simp
  by_cases hs : payload.length < 56
  · -- short form: the size is in the tag byte
    have hb : (o + UInt8.ofNat payload.length).toNat = o.toNat + payload.length :=
      toNat_tag o _ (by omega)
    simp only [lengthPrefix, hs, if_true, List.cons_append, List.length_singleton, readKind]
    rcases hok with ⟨rfl, rfl⟩ | ⟨rfl, rfl⟩
    · have c1 : ¬(0x80 + UInt8.ofNat payload.length < 0x80) := by
        rw [tag_lt_iff hb]; simp only [UInt8.reduceToNat]; omega
      have c2 : 0x80 + UInt8.ofNat payload.length < 0xB8 := by
        rw [tag_lt_iff hb]; simp only [UInt8.reduceToNat]; omega
      have c3 : (0x80 + UInt8.ofNat payload.length - 0x80).toNat = payload.length := by
        rw [toNat_tag_sub hb (by simp)]; simp
      by_cases h1 : payload.length = 1
      · obtain ⟨c, rfl⟩ := List.length_eq_one_iff.mp h1
        have hc : ¬ c < 128 := by
          have := hone rfl c rfl
          rw [UInt8.le_iff_toNat_le] at this
          rw [UInt8.lt_iff_toNat_lt]; simp only [UInt8.reduceToNat] at this ⊢; omega
        simp [readKindTag, hc, Except.bind]
      · simp only [readKindTag, c1, c2, c3, ↓reduceIte]
        simp [h1, Except.bind]
    · have c1 : ¬(0xC0 + UInt8.ofNat payload.length < 0x80) := by
        rw [tag_lt_iff hb]; simp only [UInt8.reduceToNat]; omega
      have c2 : ¬(0xC0 + UInt8.ofNat payload.length < 0xB8) := by
        rw [tag_lt_iff hb]; simp only [UInt8.reduceToNat]; omega
      have c3 : ¬(0xC0 + UInt8.ofNat payload.length < 0xC0) := by
        rw [tag_lt_iff hb]; simp only [UInt8.reduceToNat]; omega
      have c4 : 0xC0 + UInt8.ofNat payload.length < 0xF8 := by
        rw [tag_lt_iff hb]; simp only [UInt8.reduceToNat]; omega
      have c5 : (0xC0 + UInt8.ofNat payload.length - 0xC0).toNat = payload.length := by
        rw [toNat_tag_sub hb (by simp)]; simp
      simp only [readKindTag, c1, c2, c3, c4, c5, ↓reduceIte]
      simp [Except.bind]
  · -- long form: the tag carries the length of the size, then the size
    have hmlen : (BigEndian.minimal payload.length).length ≤ 8 :=
      (BigEndian.length_minimal_le_iff _ 8).mpr (by simpa using hn)
    have hmpos : 0 < (BigEndian.minimal payload.length).length := by
      rcases hmm : BigEndian.minimal payload.length with _ | ⟨_, _⟩
      · simp only [BigEndian.minimal_eq_nil_iff] at hmm; omega
      · simp
    have h55 : (o + 55).toNat = o.toNat + 55 := by
      simpa using toNat_tag o 55 (by omega)
    have hsize := @readSize_minimal payload.length (by omega) hn (payload ++ rest)
    simp only [lengthPrefix, hs, if_false, List.cons_append, List.append_assoc, List.length_cons,
      readKind]
    generalize hm : BigEndian.minimal payload.length = m at hmlen hmpos hsize ⊢
    have hb : (o + 55 + UInt8.ofNat m.length).toNat = o.toNat + 55 + m.length := by
      rw [toNat_tag (o + 55) m.length (by rw [h55]; omega), h55]
    generalize ht : o + 55 + UInt8.ofNat m.length = t at hb ⊢
    rcases hok with ⟨rfl, rfl⟩ | ⟨rfl, rfl⟩
    · have c1 : ¬(t < 0x80) := by rw [tag_lt_iff hb]; simp only [UInt8.reduceToNat]; omega
      have c2 : ¬(t < 0xB8) := by rw [tag_lt_iff hb]; simp only [UInt8.reduceToNat]; omega
      have c3 : t < 0xC0 := by rw [tag_lt_iff hb]; simp only [UInt8.reduceToNat]; omega
      have c4 : (t - 0xB7).toNat = m.length := by
        rw [toNat_tag_sub hb (by simp only [UInt8.reduceToNat]; omega)]; simp
      simp [readKindTag, c1, c2, c3, c4, hsize, Except.bind, Except.map]
    · have c1 : ¬(t < 0x80) := by rw [tag_lt_iff hb]; simp only [UInt8.reduceToNat]; omega
      have c2 : ¬(t < 0xB8) := by rw [tag_lt_iff hb]; simp only [UInt8.reduceToNat]; omega
      have c3 : ¬(t < 0xC0) := by rw [tag_lt_iff hb]; simp only [UInt8.reduceToNat]; omega
      have c4 : ¬(t < 0xF8) := by rw [tag_lt_iff hb]; simp only [UInt8.reduceToNat]; omega
      have c5 : (t - 0xF7).toNat = m.length := by
        rw [toNat_tag_sub hb (by simp only [UInt8.reduceToNat]; omega)]; simp
      simp [readKindTag, c1, c2, c3, c4, c5, hsize, Except.bind, Except.map]

/-- The kind `Split` reads for an item: a list, a single byte below `0x80`, or a string. -/
def Item.kind : Item → Kind
  | .bytes b => if b.length = 1 ∧ b.headD 0 < 0x80 then .Byte else .String
  | .list _ => .List

/-- The content `Split` cuts out of an item's encoding. -/
def Item.content : Item → Bytes
  | .bytes b => b
  | .list xs => Item.encodeAll xs

/-- `readKind` reads the header of an item's encoding back. -/
theorem readKind_encode (x : Item) (hx : x.Fits) (rest : Bytes) :
    ∃ hdr, x.encode = hdr ++ x.content ∧
      readKind (x.encode ++ rest) = some (.ok (x.kind, hdr.length, x.content.length)) := by
  cases x with
  | bytes b =>
      rcases encodeBytes_cases b with ⟨c, rfl, hc, he⟩ | ⟨hnot, he⟩
      · refine ⟨[], by simp [he, Item.content], ?_⟩
        simp [he, readKind, readKindTag, hc, Item.kind, Item.content, Except.bind]
      · refine ⟨lengthPrefix 0x80 b.length, by simp [he, Item.content], ?_⟩
        have hone : (0x80 : UInt8) = 0x80 → ∀ c, b = [c] → 0x80 ≤ c := by
          rintro - c rfl
          simpa using hnot
        rw [encode_bytes, he, readKind_lengthPrefix (.inl ⟨rfl, rfl⟩) hx hone]
        simp only [Item.kind, if_neg hnot, Item.content]
  | list xs =>
      refine ⟨lengthPrefix 0xC0 (Item.encodeAll xs).length, by simp [Item.content], ?_⟩
      rw [encode_list, readKind_lengthPrefix (.inr ⟨rfl, rfl⟩) hx.1 (by simp)]
      rfl

/-- `Split` reads back the encoding of an item: its kind, its content, and the rest. -/
theorem Split_encode (x : Item) (hx : x.Fits) (rest : Bytes) :
    Split (x.encode ++ rest) = some (.ok (x.kind, x.content, rest)) := by
  obtain ⟨hdr, he, hk⟩ := readKind_encode x hx rest
  rw [Split, hk, he]
  simp [Except.map]

theorem SplitString_encode_bytes (b : Bytes) (hb : b.length < 2 ^ 64) (rest : Bytes) :
    SplitString ((Item.bytes b).encode ++ rest) = some (.ok (b, rest)) := by
  rw [SplitString, Split_encode (Item.bytes b) hb]
  simp only [Item.kind, Item.content, Option.map_some, Except.bind]
  split <;> rfl

theorem SplitList_encode_list (xs : List Item) (hx : (Item.list xs).Fits) (rest : Bytes) :
    SplitList ((Item.list xs).encode ++ rest) = some (.ok (Item.encodeAll xs, rest)) := by
  rw [SplitList, Split_encode _ hx]
  rfl

/-- `CountValues` counts the items of a list payload. -/
theorem CountValues_encodeAll (xs : List Item) (hx : Item.FitsAll xs) :
    CountValues (Item.encodeAll xs) = some (.ok xs.length) := by
  induction xs with
  | nil => simp
  | cons x xs ih =>
      obtain ⟨hfx, hfxs⟩ := hx
      obtain ⟨hdr, he, hk⟩ := readKind_encode x hfx (Item.encodeAll xs)
      rw [encodeAll_cons, CountValues_of_readKind hk, he]
      have hdrop : (hdr ++ x.content ++ Item.encodeAll xs).drop (hdr.length + x.content.length) =
          Item.encodeAll xs := by
        simp
      rw [hdrop, ih hfxs]
      rfl

end Rlp
end Ethcore
