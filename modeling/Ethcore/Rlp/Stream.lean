import Ethcore.Rlp.Item

/-!
# The decoding `Stream` of `decode.go`

A `Stream` reads RLP piecemeal from a `bytes.Reader`.  It caches the kind and size of the
value ahead (`kind`, `size`, `byteval`, with a sticky `kinderr`), keeps a stack of the
lists it is inside (`listpos`: bytes consumed and declared size), and an optional input
limit (`remaining`, `limited`).  Every byte it consumes goes through `willRead`, which
charges the innermost list and the limit before the reader is touched.

Go methods mutate the stream and return errors as values; here each method returns its
result (an `Except`) together with the stream after the call, also on error, since the
stream keeps what it did before failing.  The stack is kept innermost list first.  The
reader is the list of its unread bytes.

The second half of the file states one spec lemma per method for the two situations the
decoder proofs meet: the accounting of `willRead` (`charge`), and reading a header the
encoder writes (`readKind_single`, `readKind_lengthPrefix`) together with the converse,
that every header `readKind` accepts is one the encoder writes (`readKind_ok`).
-/

namespace Ethcore
namespace Rlp

/-- `Kind`: the kind of value ahead in a stream. -/
inductive Kind
  | Byte
  | String
  | List
  deriving DecidableEq, Repr

/-- The error values of `decode.go` and `raw.go`, with the `io` errors a reader returns;
`decodeError` carries the message, the Go type and the context path, and `errorf` is an
error made by `fmt.Errorf`, with its text. -/
inductive Error
  | EOL
  | ErrExpectedString
  | ErrExpectedList
  | ErrCanonInt
  | ErrCanonSize
  | ErrElemTooLarge
  | ErrValueTooLarge
  | ErrMoreThanOneValue
  | errNotInList
  | errNotAtEOL
  | errUintOverflow
  | ioEOF
  | ioErrUnexpectedEOF
  | decodeError (msg : String) (typ : String) (ctx : List String)
  | errorf (text : String)
  deriving DecidableEq, Repr

/-- `listpos`: bytes of the list consumed so far and its declared content size. -/
structure ListPos where
  pos : Nat
  size : Nat
  deriving DecidableEq, Repr

/-- `Stream`, over the unread bytes `r` of a `bytes.Reader`; `kind = none` is Go's
`kind = -1` (nothing cached), and `stack` lists the open lists innermost first. -/
structure Stream where
  r : Bytes
  remaining : Nat
  limited : Bool
  kind : Option Kind
  size : Nat
  byteval : UInt8
  kinderr : Option Error
  stack : List ListPos

namespace Stream

/-- `NewStream(bytes.NewReader(b), inputLimit)`: `Reset` takes the limit given, or the
reader's length when the limit is zero; either way the stream is limited. -/
def NewStream (b : Bytes) (inputLimit : Nat) : Stream where
  r := b
  remaining := if inputLimit > 0 then inputLimit else b.length
  limited := true
  kind := none
  size := 0
  byteval := 0
  kinderr := none
  stack := []

/-- The limit half of `willRead`. -/
def checkLimit (n : Nat) (s : Stream) : Option Error × Stream :=
  if s.limited then
    if n > s.remaining then (some .ErrValueTooLarge, s)
    else (none, { s with remaining := s.remaining - n })
  else (none, s)

/-- `willRead`: rearm `Kind`, charge `n` bytes to the innermost list, then to the limit. -/
def willRead (n : Nat) (s : Stream) : Option Error × Stream :=
  let s := { s with kind := none }
  match s.stack with
  | tos :: rest =>
      if n > tos.size - tos.pos then (some .ErrElemTooLarge, s)
      else checkLimit n { s with stack := { tos with pos := tos.pos + n } :: rest }
  | [] => checkLimit n s

/-- `readByte`: `willRead(1)` then `ReadByte`, whose `io.EOF` becomes
`io.ErrUnexpectedEOF`. -/
def readByte (s : Stream) : Except Error UInt8 × Stream :=
  match s.willRead 1 with
  | (some err, s) => (.error err, s)
  | (none, s) =>
      match s.r with
      | [] => (.error .ioErrUnexpectedEOF, s)
      | b :: rest => (.ok b, { s with r := rest })

/-- `readFull` of an `n`-byte buffer: `willRead(n)` then read until full; a short reader
ends with `io.ErrUnexpectedEOF` after consuming what it had. -/
def readFull (n : Nat) (s : Stream) : Except Error Bytes × Stream :=
  match s.willRead n with
  | (some err, s) => (.error err, s)
  | (none, s) =>
      if n ≤ s.r.length then (.ok (s.r.take n), { s with r := s.r.drop n })
      else (.error .ioErrUnexpectedEOF, { s with r := [] })

/-- `readUint`: a big-endian integer of `size` bytes (the callers pass at most eight);
from two bytes on a leading zero byte is `ErrCanonSize`. -/
def readUint (size : Nat) (s : Stream) : Except Error Nat × Stream :=
  match size with
  | 0 => (.ok 0, { s with kind := none })
  | 1 =>
      match s.readByte with
      | (.ok b, s) => (.ok b.toNat, s)
      | (.error err, s) => (.error err, s)
  | size + 2 =>
      match s.readFull (size + 2) with
      | (.error err, s) => (.error err, s)
      | (.ok buf, s) =>
          if buf.headD 0 = 0 then (.error .ErrCanonSize, s) else (.ok (BigEndian.value buf), s)

/-- At top level, running out of input is reported as `io.EOF`. -/
def topLevelError (stack : List ListPos) (err : Error) : Error :=
  if stack.isEmpty then
    match err with
    | .ioErrUnexpectedEOF => .ioEOF
    | .ErrValueTooLarge => .ioEOF
    | err => err
  else err

/-- `readKind`: read a type tag and, for long forms, the size after it.  The result is
Go's triple `(kind, size, err)`; `Kind` caches the first two even when `err` is set. -/
def readKind (s : Stream) : (Kind × Nat × Option Error) × Stream :=
  match s.readByte with
  | (.error err, s) => ((.Byte, 0, some (topLevelError s.stack err)), s)
  | (.ok b, s) =>
      let s := { s with byteval := 0 }
      if b < 0x80 then ((.Byte, 0, none), { s with byteval := b })
      else if b < 0xB8 then ((.String, (b - 0x80).toNat, none), s)
      else if b < 0xC0 then
        match s.readUint (b - 0xB7).toNat with
        | (.ok size, s) => ((.String, size, if size < 56 then some .ErrCanonSize else none), s)
        | (.error err, s) => ((.String, 0, some err), s)
      else if b < 0xF8 then ((.List, (b - 0xC0).toNat, none), s)
      else
        match s.readUint (b - 0xF7).toNat with
        | (.ok size, s) => ((.List, size, if size < 56 then some .ErrCanonSize else none), s)
        | (.error err, s) => ((.List, 0, some err), s)

/-- The size check `Kind` makes after a fresh `readKind`: against the limit at top level,
against the rest of the innermost list inside one. -/
def sizeError (s : Stream) (size : Nat) : Option Error :=
  match s.stack with
  | [] => if s.limited ∧ size > s.remaining then some .ErrValueTooLarge else none
  | tos :: _ => if size > tos.size - tos.pos then some .ErrElemTooLarge else none

/-- `Kind`: the kind and size of the value ahead, read once and cached until consumed;
`EOL` at the end of the innermost list. -/
def Kind (s : Stream) : Except Error (Rlp.Kind × Nat) × Stream :=
  match s.kind with
  | some k =>
      match s.kinderr with
      | some err => (.error err, s)
      | none => (.ok (k, s.size), s)
  | none =>
      let s := { s with kinderr := none }
      if s.stack.head?.any (fun tos => tos.pos = tos.size) then (.error .EOL, s)
      else
        let ((k, size, err), s) := s.readKind
        let err := match err with
          | some err => some err
          | none => s.sizeError size
        let s := { s with kind := some k, size := size, kinderr := err }
        match err with
        | some err => (.error err, s)
        | none => (.ok (k, size), s)

/-- `Bytes`: the contents of an RLP string; a one-byte string below `0x80` is
`ErrCanonSize`. -/
def Bytes (s : Stream) : Except Error Ethcore.Bytes × Stream :=
  match s.Kind with
  | (.error err, s) => (.error err, s)
  | (.ok (.Byte, _), s) => (.ok [s.byteval], { s with kind := none })
  | (.ok (.String, size), s) =>
      match s.readFull size with
      | (.error err, s) => (.error err, s)
      | (.ok b, s) =>
          if size = 1 ∧ b.headD 0 < 128 then (.error .ErrCanonSize, s) else (.ok b, s)
  | (.ok (.List, _), s) => (.error .ErrExpectedString, s)

/-- `uint`: an RLP string of at most `maxbits / 8` bytes as an integer. -/
def uint (maxbits : Nat) (s : Stream) : Except Error Nat × Stream :=
  match s.Kind with
  | (.error err, s) => (.error err, s)
  | (.ok (.Byte, _), s) =>
      if s.byteval = 0 then (.error .ErrCanonInt, s)
      else (.ok s.byteval.toNat, { s with kind := none })
  | (.ok (.String, size), s) =>
      if size > maxbits / 8 then (.error .errUintOverflow, s)
      else
        match s.readUint size with
        | (.error .ErrCanonSize, s) => (.error .ErrCanonInt, s)
        | (.error err, s) => (.error err, s)
        | (.ok v, s) => if size > 0 ∧ v < 128 then (.error .ErrCanonSize, s) else (.ok v, s)
  | (.ok (.List, _), s) => (.error .ErrExpectedString, s)

/-- `Uint`. -/
def Uint (s : Stream) : Except Error Nat × Stream :=
  s.uint 64

/-- `List`: enter a list; its declared size is pushed with nothing consumed yet. -/
def List (s : Stream) : Except Error Nat × Stream :=
  match s.Kind with
  | (.error err, s) => (.error err, s)
  | (.ok (k, size), s) =>
      if k = .List then
        (.ok size, { s with stack := ⟨0, size⟩ :: s.stack, kind := none, size := 0 })
      else (.error .ErrExpectedList, s)

/-- `ListEnd`: leave the innermost list, which must be consumed exactly; the enclosing
list is charged its whole size. -/
def ListEnd (s : Stream) : Option Error × Stream :=
  match s.stack with
  | [] => (some .errNotInList, s)
  | tos :: rest =>
      if tos.pos ≠ tos.size then (some .errNotAtEOL, s)
      else
        let stack := match rest with
          | [] => []
          | parent :: rest => { parent with pos := parent.pos + tos.size } :: rest
        (none, { s with stack := stack, kind := none, size := 0 })

end Stream

/-! ### Accounting: what a successful read charges -/

/-- The stream after `willRead` charged `n` bytes: kind rearmed, the innermost list and the
limit both charged. -/
def Stream.charge (s : Stream) (n : Nat) : Stream :=
  { s with
    kind := none
    remaining := if s.limited then s.remaining - n else s.remaining
    stack := match s.stack with
      | [] => []
      | tos :: rest => { tos with pos := tos.pos + n } :: rest }

/-- The stream after `n` bytes were charged and taken from the reader. -/
def Stream.consume (s : Stream) (n : Nat) : Stream :=
  { s.charge n with r := s.r.drop n }

/-- `n` more bytes fit both the innermost list and the limit. -/
def Stream.Room (s : Stream) (n : Nat) : Prop :=
  (s.limited = true → n ≤ s.remaining) ∧ ∀ tos ∈ s.stack.head?, n ≤ tos.size - tos.pos

@[simp] theorem Stream.charge_r (s : Stream) (n : Nat) : (s.charge n).r = s.r := rfl
@[simp] theorem Stream.charge_limited (s : Stream) (n : Nat) : (s.charge n).limited = s.limited := rfl
@[simp] theorem Stream.charge_kind (s : Stream) (n : Nat) : (s.charge n).kind = none := rfl

theorem Stream.Room.mono {s : Stream} {n m : Nat} (h : s.Room n) (hm : m ≤ n) : s.Room m :=
  ⟨fun hl => le_trans hm (h.1 hl), fun tos htos => le_trans hm (h.2 tos htos)⟩

theorem Stream.willRead_eq {s : Stream} {n : Nat} (h : s.Room n) :
    s.willRead n = (none, s.charge n) := by
  obtain ⟨hlim, hlist⟩ := h
  unfold Stream.willRead Stream.checkLimit Stream.charge
  cases hs : s.stack with
  | nil =>
      cases hl : s.limited
      · simp
      · simp [Nat.not_lt.mpr (hlim hl)]
  | cons tos rest =>
      have htos : n ≤ tos.size - tos.pos := hlist tos (by simp [hs])
      cases hl : s.limited
      · simp [Nat.not_lt.mpr htos]
      · simp [Nat.not_lt.mpr htos, Nat.not_lt.mpr (hlim hl)]

/-- A `willRead` that succeeds had room and charged exactly `n`. -/
theorem Stream.willRead_none {s s' : Stream} {n : Nat} (h : s.willRead n = (none, s')) :
    s.Room n ∧ s' = s.charge n := by
  unfold Stream.willRead Stream.checkLimit at h
  unfold Stream.Room Stream.charge
  cases hs : s.stack with
  | nil =>
      cases hl : s.limited <;> simp [hs, hl] at h ⊢
      · exact h.symm
      · split at h
        · simp at h
        · simp at h; refine ⟨by omega, h.symm⟩
  | cons tos rest =>
      simp only [hs] at h
      split at h
      · simp at h
      · cases hl : s.limited <;> simp [hl] at h ⊢
        · exact ⟨by omega, h.symm⟩
        · split at h
          · simp at h
          · simp at h; exact ⟨⟨by omega, by omega⟩, h.symm⟩

theorem Stream.readByte_eq {s : Stream} {b : UInt8} {rest : Ethcore.Bytes} (h : s.Room 1)
    (hr : s.r = b :: rest) : s.readByte = (.ok b, s.consume 1) := by
  simp [Stream.readByte, Stream.willRead_eq h, Stream.consume, hr]

theorem Stream.readByte_ok {s s' : Stream} {b : UInt8} (h : s.readByte = (.ok b, s')) :
    s.Room 1 ∧ s.r = b :: s'.r ∧ s' = s.consume 1 := by
  unfold Stream.readByte at h
  cases hw : s.willRead 1 with
  | mk e s1 =>
      rw [hw] at h
      cases e with
      | some _ => simp at h
      | none =>
          obtain ⟨hroom, rfl⟩ := Stream.willRead_none hw
          simp only [Stream.charge_r] at h
          cases hr : s.r with
          | nil => simp [hr] at h
          | cons c rest =>
              simp only [hr, Except.ok.injEq, Prod.mk.injEq] at h
              obtain ⟨rfl, rfl⟩ := h
              exact ⟨hroom, rfl, by simp [Stream.consume, hr]⟩

theorem Stream.readFull_eq {s : Stream} {n : Nat} (h : s.Room n) (hn : n ≤ s.r.length) :
    s.readFull n = (.ok (s.r.take n), s.consume n) := by
  simp [Stream.readFull, Stream.willRead_eq h, hn, Stream.consume]

theorem Stream.readFull_ok {s s' : Stream} {n : Nat} {b : Ethcore.Bytes} (h : s.readFull n = (.ok b, s')) :
    s.Room n ∧ b.length = n ∧ s.r = b ++ s'.r ∧ s' = s.consume n := by
  unfold Stream.readFull at h
  cases hw : s.willRead n with
  | mk e s1 =>
      rw [hw] at h
      cases e with
      | some _ => simp at h
      | none =>
          obtain ⟨hroom, rfl⟩ := Stream.willRead_none hw
          simp only [Stream.charge_r] at h
          by_cases hn : n ≤ s.r.length
          · simp only [hn, if_true, Except.ok.injEq, Prod.mk.injEq] at h
            obtain ⟨rfl, rfl⟩ := h
            exact ⟨hroom, by simp [hn], by simp, rfl⟩
          · simp [hn] at h

theorem Stream.consume_consume (s : Stream) (a b : Nat) :
    (s.consume a).consume b = s.consume (a + b) := by
  unfold Stream.consume Stream.charge
  cases hs : s.stack <;> cases hl : s.limited <;>
    simp [List.drop_drop, Nat.sub_sub, Nat.add_assoc]

theorem Stream.Room.consume {s : Stream} {a b : Nat} (h : s.Room (a + b)) :
    (s.consume a).Room b := by
  obtain ⟨hlim, hlist⟩ := h
  unfold Stream.consume Stream.charge Stream.Room
  cases hs : s.stack with
  | nil =>
      refine ⟨fun hl => ?_, by simp⟩
      simp only at hl
      simp only [hl, if_true]
      have := hlim hl
      omega
  | cons tos rest =>
      have htos := hlist tos (by simp [hs])
      refine ⟨fun hl => ?_, by simp; omega⟩
      simp only at hl
      simp only [hl, if_true]
      have := hlim hl
      omega

/-! ### Reading the headers the encoder writes -/

/-- A tag byte plus a small offset, as a number. -/
theorem toNat_tag (o : UInt8) (k : Nat) (h : o.toNat + k < 256) :
    (o + UInt8.ofNat k).toNat = o.toNat + k := by
  rw [UInt8.toNat_add, UInt8.toNat_ofNat', Nat.mod_eq_of_lt (by omega : k < 2 ^ 8)]
  exact Nat.mod_eq_of_lt h

/-- `readUint` reads back a long-form length written by `putint`. -/
theorem Stream.readUint_minimal {s : Stream} {n : Nat} {tail : Ethcore.Bytes} (hn : n ≠ 0)
    (hr : s.r = BigEndian.minimal n ++ tail) (h : s.Room (BigEndian.minimal n).length) :
    s.readUint (BigEndian.minimal n).length = (.ok n, s.consume (BigEndian.minimal n).length) := by
  have hnz := BigEndian.minimal_noLeadingZero n
  have hval := BigEndian.value_minimal n
  cases hm : BigEndian.minimal n with
  | nil => simp [BigEndian.minimal_eq_nil_iff] at hm; exact absurd hm hn
  | cons x rest =>
      rw [hm] at hr h hval
      cases rest with
      | nil =>
          simp only [List.length_singleton, Stream.readUint]
          rw [Stream.readByte_eq h (by simpa using hr)]
          simp [BigEndian.value_cons] at hval
          simp [hval]
      | cons y rest =>
          have hroom : s.Room (rest.length + 2) := by simpa using h
          have hlen : rest.length + 2 ≤ s.r.length := by simp [hr]
          have htake : s.r.take (rest.length + 2) = x :: y :: rest := by
            simp [hr]
          have hx : x ≠ 0 := hnz x (y :: rest) hm
          simp only [List.length_cons, Stream.readUint]
          rw [Stream.readFull_eq hroom hlen]
          simp [htake, hx, hval]

/-- A byte below `0x80` is a value of kind `Byte` on its own. -/
theorem Stream.readKind_single {s : Stream} {c : UInt8} {tail : Ethcore.Bytes} (hc : c < 0x80)
    (hr : s.r = c :: tail) (h : s.Room 1) :
    s.readKind = ((.Byte, 0, none), { s.consume 1 with byteval := c }) := by
  simp [Stream.readKind, Stream.readByte_eq h hr, hc]

/-- A string or list header as `lengthPrefix` writes it is read back with its size. -/
theorem Stream.readKind_lengthPrefix {s : Stream} {o : UInt8} {k : Rlp.Kind}
    (hok : (o = 0x80 ∧ k = .String) ∨ (o = 0xC0 ∧ k = .List)) {n : Nat} (hn : n < 2 ^ 64)
    {tail : Ethcore.Bytes} (hr : s.r = lengthPrefix o n ++ tail)
    (h : s.Room (lengthPrefix o n).length) :
    s.readKind = ((k, n, none), { s.consume (lengthPrefix o n).length with byteval := 0 }) := by
  have ho : o.toNat = 128 ∨ o.toNat = 192 := by
    rcases hok with ⟨rfl, -⟩ | ⟨rfl, -⟩ <;> simp
  by_cases hs : n < 56
  · -- short form: the size is in the tag byte
    have hb : (o + UInt8.ofNat n).toNat = o.toNat + n := toNat_tag o n (by omega)
    simp only [lengthPrefix, hs, if_true, List.singleton_append] at hr h ⊢
    simp only [List.length_singleton] at h ⊢
    unfold Stream.readKind
    rw [Stream.readByte_eq h hr]
    rcases hok with ⟨rfl, rfl⟩ | ⟨rfl, rfl⟩
    · have h1 : ¬(0x80 + UInt8.ofNat n < 0x80) := by
        rw [UInt8.lt_iff_toNat_lt, hb]; simp only [UInt8.reduceToNat]; omega
      have h2 : 0x80 + UInt8.ofNat n < 0xB8 := by
        rw [UInt8.lt_iff_toNat_lt, hb]; simp only [UInt8.reduceToNat]; omega
      have h3 : (0x80 + UInt8.ofNat n - 0x80).toNat = n := by
        rw [UInt8.toNat_sub_of_le _ _ (by rw [UInt8.le_iff_toNat_le, hb]; simp only [UInt8.reduceToNat]; omega), hb]
        simp
      simp only [h1, ↓reduceIte, h2, h3]
    · have h1 : ¬(0xC0 + UInt8.ofNat n < 0x80) := by
        rw [UInt8.lt_iff_toNat_lt, hb]; simp only [UInt8.reduceToNat]; omega
      have h2 : ¬(0xC0 + UInt8.ofNat n < 0xB8) := by
        rw [UInt8.lt_iff_toNat_lt, hb]; simp only [UInt8.reduceToNat]; omega
      have h3 : ¬(0xC0 + UInt8.ofNat n < 0xC0) := by
        rw [UInt8.lt_iff_toNat_lt, hb]; simp only [UInt8.reduceToNat]; omega
      have h4 : 0xC0 + UInt8.ofNat n < 0xF8 := by
        rw [UInt8.lt_iff_toNat_lt, hb]; simp only [UInt8.reduceToNat]; omega
      have h5 : (0xC0 + UInt8.ofNat n - 0xC0).toNat = n := by
        rw [UInt8.toNat_sub_of_le _ _ (by rw [UInt8.le_iff_toNat_le, hb]; simp only [UInt8.reduceToNat]; omega), hb]
        simp
      simp only [h1, ↓reduceIte, h2, h3, h4, h5]
  · -- long form: the tag carries the length of the size, `putint` the size
    have hmlen : (BigEndian.minimal n).length ≤ 8 :=
      (BigEndian.length_minimal_le_iff n 8).mpr (by simpa using hn)
    have hmpos : 0 < (BigEndian.minimal n).length := by
      rcases hmm : BigEndian.minimal n with _ | ⟨_, _⟩
      · simp [BigEndian.minimal_eq_nil_iff] at hmm; omega
      · simp
    have h55 : (o + 55).toNat = o.toNat + 55 := by
      have := toNat_tag o 55 (by omega)
      simpa using this
    have hb : (o + 55 + UInt8.ofNat (BigEndian.minimal n).length).toNat =
        o.toNat + 55 + (BigEndian.minimal n).length := by
      rw [toNat_tag _ _ (by omega), h55]
    simp only [lengthPrefix, hs, if_false, List.cons_append] at hr h ⊢
    simp only [List.length_cons] at h ⊢
    have h1 : s.Room 1 := h.mono (by omega)
    have h2 : (s.consume 1).Room (BigEndian.minimal n).length :=
      Stream.Room.consume (by rwa [Nat.add_comm])
    have hr2 : (s.consume 1).r = BigEndian.minimal n ++ tail := by simp [Stream.consume, hr]
    have hread : ({ s.consume 1 with byteval := 0 } : Stream).readUint
        (BigEndian.minimal n).length = (.ok n, ({ s.consume 1 with byteval := 0 } : Stream).consume
          (BigEndian.minimal n).length) :=
      Stream.readUint_minimal (by omega) hr2 h2
    have hcons : ({ s.consume 1 with byteval := 0 } : Stream).consume (BigEndian.minimal n).length =
        { s.consume ((BigEndian.minimal n).length + 1) with byteval := 0 } := by
      rw [show ({ s.consume 1 with byteval := 0 } : Stream).consume (BigEndian.minimal n).length =
        { (s.consume 1).consume (BigEndian.minimal n).length with byteval := 0 } from rfl,
        Stream.consume_consume, Nat.add_comm]
    have hbig : ¬n < 56 := hs
    unfold Stream.readKind
    rw [Stream.readByte_eq h1 hr]
    rcases hok with ⟨rfl, rfl⟩ | ⟨rfl, rfl⟩
    · have c1 : ¬(0x80 + 55 + UInt8.ofNat (BigEndian.minimal n).length < 0x80) := by
        rw [UInt8.lt_iff_toNat_lt, hb]; simp only [UInt8.reduceToNat]; omega
      have c2 : ¬(0x80 + 55 + UInt8.ofNat (BigEndian.minimal n).length < 0xB8) := by
        rw [UInt8.lt_iff_toNat_lt, hb]; simp only [UInt8.reduceToNat]; omega
      have c3 : 0x80 + 55 + UInt8.ofNat (BigEndian.minimal n).length < 0xC0 := by
        rw [UInt8.lt_iff_toNat_lt, hb]; simp only [UInt8.reduceToNat]; omega
      have c4 : (0x80 + 55 + UInt8.ofNat (BigEndian.minimal n).length - 0xB7).toNat =
          (BigEndian.minimal n).length := by
        rw [UInt8.toNat_sub_of_le _ _ (by rw [UInt8.le_iff_toNat_le, hb]; simp only [UInt8.reduceToNat]; omega), hb]
        simp
      simp only [c1, c2, c3, c4, if_false, if_true, hread, hcons, hbig]
    · have c1 : ¬(0xC0 + 55 + UInt8.ofNat (BigEndian.minimal n).length < 0x80) := by
        rw [UInt8.lt_iff_toNat_lt, hb]; simp only [UInt8.reduceToNat]; omega
      have c2 : ¬(0xC0 + 55 + UInt8.ofNat (BigEndian.minimal n).length < 0xB8) := by
        rw [UInt8.lt_iff_toNat_lt, hb]; simp only [UInt8.reduceToNat]; omega
      have c3 : ¬(0xC0 + 55 + UInt8.ofNat (BigEndian.minimal n).length < 0xC0) := by
        rw [UInt8.lt_iff_toNat_lt, hb]; simp only [UInt8.reduceToNat]; omega
      have c4 : ¬(0xC0 + 55 + UInt8.ofNat (BigEndian.minimal n).length < 0xF8) := by
        rw [UInt8.lt_iff_toNat_lt, hb]; simp only [UInt8.reduceToNat]; omega
      have c5 : (0xC0 + 55 + UInt8.ofNat (BigEndian.minimal n).length - 0xF7).toNat =
          (BigEndian.minimal n).length := by
        rw [UInt8.toNat_sub_of_le _ _ (by rw [UInt8.le_iff_toNat_le, hb]; simp only [UInt8.reduceToNat]; omega), hb]
        simp
      simp only [c1, c2, c3, c4, c5, if_false, hread, hcons, hbig]

/-! ### Every header `readKind` accepts is canonical -/

theorem Stream.Room.of_consume {s : Stream} {a b : Nat} (ha : s.Room a) (hb : (s.consume a).Room b) :
    s.Room (a + b) := by
  obtain ⟨hla, hsa⟩ := ha
  obtain ⟨hlb, hsb⟩ := hb
  unfold Stream.consume Stream.charge at hlb hsb
  refine ⟨fun hl => ?_, fun tos htos => ?_⟩
  · have h1 := hla hl
    have h2 := hlb (by simpa using hl)
    simp only [hl, if_true] at h2
    omega
  · cases hs : s.stack with
    | nil => simp [hs] at htos
    | cons top rest =>
        simp only [hs, List.head?_cons, Option.mem_def, Option.some.injEq] at htos
        subst htos
        have h1 := hsa top (by simp [hs])
        have h2 := hsb ⟨top.pos + a, top.size⟩ (by simp [hs])
        simp only at h2
        omega

/-- What a successful multi-byte `readUint` read: a big-endian string of that length. -/
theorem Stream.readUint_ok {s s' : Stream} {j v : Nat} (hj : 0 < j)
    (h : s.readUint j = (.ok v, s')) :
    ∃ buf : Ethcore.Bytes, buf.length = j ∧ s.r = buf ++ s'.r ∧ s.Room j ∧ s' = s.consume j ∧
      v = BigEndian.value buf ∧ (2 ≤ j → BigEndian.NoLeadingZero buf) := by
  match j, h with
  | 1, h =>
      simp only [Stream.readUint] at h
      cases hb : s.readByte with
      | mk res s1 =>
          rw [hb] at h
          cases res with
          | error e => simp at h
          | ok c =>
              simp only [Except.ok.injEq, Prod.mk.injEq] at h
              obtain ⟨rfl, rfl⟩ := h
              obtain ⟨hroom, hr, rfl⟩ := Stream.readByte_ok hb
              exact ⟨[c], rfl, hr, hroom, rfl, by simp [BigEndian.value_cons], by omega⟩
  | j + 2, h =>
      simp only [Stream.readUint] at h
      cases hf : s.readFull (j + 2) with
      | mk res s1 =>
          rw [hf] at h
          cases res with
          | error e => simp at h
          | ok buf =>
              simp only at h
              split at h
              · simp at h
              · rename_i hhead
                simp only [Except.ok.injEq, Prod.mk.injEq] at h
                obtain ⟨rfl, rfl⟩ := h
                obtain ⟨hroom, hlen, hr, rfl⟩ := Stream.readFull_ok hf
                refine ⟨buf, hlen, hr, hroom, rfl, rfl, fun _ c rest hc => ?_⟩
                subst hc
                simpa using hhead

/-- A tag byte is its base plus its offset from the base. -/
theorem tag_add_sub (t b : UInt8) : t + UInt8.ofNat (b - t).toNat = b := by
  rw [UInt8.ofNat_toNat, UInt8.add_comm, UInt8.sub_add_cancel]

/-- The offset of a tag from its base, as a byte. -/
theorem sub_tag_eq (b t : UInt8) (k : Nat) (hlo : t ≤ b) (hk : b.toNat - t.toNat = k) :
    b - t = UInt8.ofNat k := by
  apply UInt8.toNat_inj.mp
  have hb := b.toNat_lt
  rw [UInt8.toNat_sub_of_le _ _ hlo, UInt8.toNat_ofNat', hk]
  exact (Nat.mod_eq_of_lt (by omega)).symm

/-- A long-form size: tag `t + 55 + |buf|` then `buf`, read as a size of at least 56, is the
header `lengthPrefix t` writes. -/
theorem lengthPrefix_of_long (t b : UInt8) (buf : Ethcore.Bytes) (size : Nat)
    (hb : b - (t + 55) = UInt8.ofNat buf.length) (hlen : buf.length ≤ 8) (hpos : 0 < buf.length)
    (hsize : size = BigEndian.value buf) (hbig : ¬size < 56)
    (hnz : 2 ≤ buf.length → BigEndian.NoLeadingZero buf) :
    b :: buf = lengthPrefix t size ∧ size < 2 ^ 64 := by
  have hnz' : BigEndian.NoLeadingZero buf := by
    by_cases h2 : 2 ≤ buf.length
    · exact hnz h2
    · intro c rest hc
      subst hc
      have : rest = [] := by
        simp only [List.length_cons] at h2
        exact List.eq_nil_of_length_eq_zero (by omega)
      subst this
      intro h0
      simp [h0, BigEndian.value_cons] at hsize
      omega
  have hmin : BigEndian.minimal size = buf := by rw [hsize]; exact BigEndian.minimal_value buf hnz'
  refine ⟨?_, ?_⟩
  · simp only [lengthPrefix, hbig, if_false, hmin, List.cons.injEq, and_true]
    rw [← hb, UInt8.add_comm, UInt8.sub_add_cancel]
  · have := BigEndian.value_lt buf
    rw [hsize]
    calc BigEndian.value buf < 256 ^ buf.length := this
      _ ≤ 256 ^ 8 := Nat.pow_le_pow_right (by norm_num) hlen
      _ = 2 ^ 64 := by norm_num

/-- A short-form tag `t + n` with `n < 56` is the header `lengthPrefix t n`. -/
theorem lengthPrefix_of_short (t b : UInt8) (hlo : t ≤ b) (hhi : b.toNat < t.toNat + 56) :
    [b] = lengthPrefix t (b - t).toNat ∧ (b - t).toNat < 56 := by
  have hsub : (b - t).toNat = b.toNat - t.toNat := UInt8.toNat_sub_of_le _ _ hlo
  have hsmall : (b - t).toNat < 56 := by rw [hsub]; omega
  refine ⟨?_, hsmall⟩
  simp only [lengthPrefix, hsmall, if_true, tag_add_sub]

/-- The long form of a header: after a tag `b` above `off = t + 55`, `readUint` of the
`b - off` bytes that follow reads a size of at least `56` only where the tag and those bytes
are the header `lengthPrefix t` writes for it. -/
theorem Stream.readKind_long (t : UInt8) {s s2 : Stream} {b off : UInt8} {size : Nat}
    (hoff : off = t + 55) (hj8 : (b - off).toNat ≤ 8)
    (hjpos : 0 < (b - off).toNat) (hroom1 : s.Room 1) (hr1 : s.r = b :: (s.consume 1).r)
    (hu : ({ s.consume 1 with byteval := 0 } : Stream).readUint (b - off).toNat = (.ok size, s2))
    (hbig : ¬size < 56) :
    ∃ buf : Ethcore.Bytes, s.r = (b :: buf) ++ s2.r ∧ s.Room (b :: buf).length ∧
      s2 = { s.consume (b :: buf).length with byteval := s2.byteval } ∧
      b :: buf = lengthPrefix t size ∧ size < 2 ^ 64 := by
  obtain ⟨buf, hlen, hr2, hroom2, hs2, hval, hnz⟩ := Stream.readUint_ok hjpos hu
  obtain ⟨hpre, hfits⟩ := lengthPrefix_of_long t b buf size
    (by rw [← hoff, hlen, UInt8.ofNat_toNat]) (by omega) (by omega) hval hbig
    (fun h2 => hnz (by omega))
  refine ⟨buf, ?_, ?_, ?_, hpre, hfits⟩
  · rw [hr1, List.cons_append]
    exact congrArg (List.cons b) hr2
  · simpa [hlen, Nat.add_comm] using Stream.Room.of_consume hroom1 hroom2
  · -- the tag and the size are consumed in two reads
    have hc : s2 = { s.consume (1 + (b - off).toNat) with byteval := 0 } := by
      rw [hs2, ← Stream.consume_consume]; rfl
    rw [hc]
    simp [hlen, Nat.add_comm]

/-- **What `readKind` accepts.**  A tag read without error is a single byte below `0x80`,
or exactly the header `lengthPrefix` writes for a string or a list of the size returned;
the bytes consumed are that header, charged like every read. -/
theorem Stream.readKind_ok {s s' : Stream} {k : Rlp.Kind} {n : Nat}
    (h : s.readKind = ((k, n, none), s')) :
    ∃ hdr : Ethcore.Bytes, s.r = hdr ++ s'.r ∧ s.Room hdr.length ∧
      s' = { s.consume hdr.length with byteval := s'.byteval } ∧
      ((k = .Byte ∧ n = 0 ∧ ∃ c, c < 0x80 ∧ hdr = [c] ∧ s'.byteval = c) ∨
       (k = .String ∧ n < 2 ^ 64 ∧ hdr = lengthPrefix 0x80 n) ∨
       (k = .List ∧ n < 2 ^ 64 ∧ hdr = lengthPrefix 0xC0 n)) := by
  unfold Stream.readKind at h
  cases hb : s.readByte with
  | mk res s1 =>
    rw [hb] at h
    cases res with
    | error e => simp at h
    | ok b =>
      obtain ⟨hroom1, hr1, rfl⟩ := Stream.readByte_ok hb
      simp only at h
      split_ifs at h with c1 c2 c3 c4
      · -- a single byte
        simp only [Prod.mk.injEq] at h
        obtain ⟨⟨rfl, rfl, -⟩, rfl⟩ := h
        exact ⟨[b], hr1, hroom1, rfl, .inl ⟨rfl, rfl, b, c1, rfl, rfl⟩⟩
      · -- a short string
        simp only [Prod.mk.injEq] at h
        obtain ⟨⟨rfl, rfl, -⟩, rfl⟩ := h
        have hlo : (0x80 : UInt8) ≤ b := by
          rw [UInt8.le_iff_toNat_le]; rw [UInt8.lt_iff_toNat_lt] at c1; simp at c1 ⊢; omega
        obtain ⟨hpre, hsmall⟩ := lengthPrefix_of_short 0x80 b hlo
          (by rw [UInt8.lt_iff_toNat_lt] at c2; simpa using c2)
        exact ⟨[b], hr1, hroom1, rfl, .inr (.inl ⟨rfl, by omega, hpre⟩)⟩
      · -- a long string: a big-endian size of `b - 0xB7` bytes follows
        have hlo : (0xB7 : UInt8) ≤ b := by
          rw [UInt8.le_iff_toNat_le]; rw [UInt8.lt_iff_toNat_lt] at c2; simp at c2 ⊢; omega
        have hj : (b - 0xB7).toNat = b.toNat - 183 := by rw [UInt8.toNat_sub_of_le _ _ hlo]; simp
        have hjb : b.toNat < 192 := by rw [UInt8.lt_iff_toNat_lt] at c3; simpa using c3
        have hjpos : 0 < b.toNat - 183 := by rw [UInt8.lt_iff_toNat_lt] at c2; simp at c2; omega
        cases hu : ({ s.consume 1 with byteval := 0 } : Stream).readUint (b - 0xB7).toNat with
        | mk res s2 =>
          rw [hu] at h
          cases res with
          | error e => simp at h
          | ok size =>
            simp only [Prod.mk.injEq] at h
            obtain ⟨⟨rfl, rfl, hcanon⟩, rfl⟩ := h
            split_ifs at hcanon with hbig
            obtain ⟨buf, hr, hroom, hs, hpre, hfits⟩ :=
              Stream.readKind_long 0x80 (by decide) (by omega) (by omega) hroom1 hr1 hu hbig
            exact ⟨b :: buf, hr, hroom, hs, .inr (.inl ⟨rfl, hfits, hpre⟩)⟩
      · -- a short list
        simp only [Prod.mk.injEq] at h
        obtain ⟨⟨rfl, rfl, -⟩, rfl⟩ := h
        have hlo : (0xC0 : UInt8) ≤ b := by
          rw [UInt8.le_iff_toNat_le]; rw [UInt8.lt_iff_toNat_lt] at c3; simp at c3 ⊢; omega
        obtain ⟨hpre, hsmall⟩ := lengthPrefix_of_short 0xC0 b hlo
          (by rw [UInt8.lt_iff_toNat_lt] at c4; simpa using c4)
        exact ⟨[b], hr1, hroom1, rfl, .inr (.inr ⟨rfl, by omega, hpre⟩)⟩
      · -- a long list
        have hlo : (0xF7 : UInt8) ≤ b := by
          rw [UInt8.le_iff_toNat_le]; rw [UInt8.lt_iff_toNat_lt] at c4; simp at c4 ⊢; omega
        have hj : (b - 0xF7).toNat = b.toNat - 247 := by rw [UInt8.toNat_sub_of_le _ _ hlo]; simp
        have hjb : b.toNat < 256 := b.toNat_lt
        have hjpos : 0 < b.toNat - 247 := by rw [UInt8.lt_iff_toNat_lt] at c4; simp at c4; omega
        cases hu : ({ s.consume 1 with byteval := 0 } : Stream).readUint (b - 0xF7).toNat with
        | mk res s2 =>
          rw [hu] at h
          cases res with
          | error e => simp at h
          | ok size =>
            simp only [Prod.mk.injEq] at h
            obtain ⟨⟨rfl, rfl, hcanon⟩, rfl⟩ := h
            split_ifs at hcanon with hbig
            obtain ⟨buf, hr, hroom, hs, hpre, hfits⟩ :=
              Stream.readKind_long 0xC0 (by decide) (by omega) (by omega) hroom1 hr1 hu hbig
            exact ⟨b :: buf, hr, hroom, hs, .inr (.inr ⟨rfl, hfits, hpre⟩)⟩

/-! ### `Kind`, `Bytes`, `List` and `ListEnd` -/

/-- `Kind` with a cached kind and no sticky error returns the cache and changes nothing. -/
theorem Stream.Kind_cached {s : Stream} {k : Rlp.Kind} (hk : s.kind = some k)
    (he : s.kinderr = none) : s.Kind = (.ok (k, s.size), s) := by
  simp [Stream.Kind, hk, he]

/-- `Kind` from a rearmed stream, not at the end of its list: `readKind`, then the size
check, then the cache. -/
theorem Stream.Kind_fresh {s s1 : Stream} {k : Rlp.Kind} {n : Nat} (hk : s.kind = none)
    (hend : ∀ tos ∈ s.stack.head?, tos.pos ≠ tos.size)
    (hread : ({ s with kind := none, kinderr := none } : Stream).readKind = ((k, n, none), s1))
    (hsize : s1.sizeError n = none) :
    s.Kind = (.ok (k, n), { s1 with kind := some k, size := n, kinderr := none }) := by
  have hany : (s.stack.head?.any fun tos => decide (tos.pos = tos.size)) = false := by
    cases hs : s.stack.head? with
    | none => rfl
    | some tos => simpa using hend tos (by simp [hs])
  simp only [Stream.Kind, hk, hany, Bool.false_eq_true, if_false, hread, hsize]

/-- At the end of the innermost list `Kind` reports `EOL` and consumes nothing. -/
theorem Stream.Kind_EOL {s : Stream} {tos : ListPos} (hk : s.kind = none)
    (hs : s.stack.head? = some tos) (hend : tos.pos = tos.size) :
    s.Kind = (.error .EOL, { s with kinderr := none }) := by
  simp [Stream.Kind, hk, hs, hend]

/-! `EOL` comes only from `Kind`'s end-of-list check: no read below it reports it. -/

theorem Stream.willRead_ne_EOL {s s' : Stream} {n : Nat} {err : Error}
    (h : s.willRead n = (some err, s')) : err ≠ .EOL := by
  unfold Stream.willRead Stream.checkLimit at h
  dsimp only at h
  split at h <;> split_ifs at h <;> cases h <;> simp

theorem Stream.readByte_ne_EOL {s s' : Stream} {err : Error}
    (h : s.readByte = (.error err, s')) : err ≠ .EOL := by
  unfold Stream.readByte at h
  rcases hw : s.willRead 1 with ⟨_ | e, s1⟩ <;> rw [hw] at h <;> dsimp only at h
  · split at h <;> cases h
    simp
  · cases h
    exact Stream.willRead_ne_EOL hw

theorem Stream.readFull_ne_EOL {s s' : Stream} {n : Nat} {err : Error}
    (h : s.readFull n = (.error err, s')) : err ≠ .EOL := by
  unfold Stream.readFull at h
  rcases hw : s.willRead n with ⟨_ | e, s1⟩ <;> rw [hw] at h <;> dsimp only at h
  · split_ifs at h <;> cases h
    simp
  · cases h
    exact Stream.willRead_ne_EOL hw

theorem Stream.readUint_ne_EOL {s s' : Stream} {size : Nat} {err : Error}
    (h : s.readUint size = (.error err, s')) : err ≠ .EOL := by
  unfold Stream.readUint at h
  split at h
  · cases h
  · rcases hb : s.readByte with ⟨e | b, s1⟩ <;> rw [hb] at h <;> dsimp only at h <;> cases h
    exact Stream.readByte_ne_EOL hb
  · rcases hf : s.readFull _ with ⟨e | buf, s1⟩ <;> rw [hf] at h <;> dsimp only at h
    · cases h
      exact Stream.readFull_ne_EOL hf
    · split_ifs at h <;> cases h
      simp

theorem Stream.readKind_ne_EOL {s s' : Stream} {k : Rlp.Kind} {n : Nat} {err : Error}
    (h : s.readKind = ((k, n, some err), s')) : err ≠ .EOL := by
  unfold Stream.readKind at h
  rcases hb : s.readByte with ⟨e | b, s1⟩ <;> rw [hb] at h
  · -- the tag could not be read; at top level the reader's error is renamed
    cases h
    unfold Stream.topLevelError
    split
    · split <;> simp [Stream.readByte_ne_EOL hb]
    · exact Stream.readByte_ne_EOL hb
  · dsimp only at h
    split_ifs at h
    all_goals first
      | cases h
      | rcases hr : Stream.readUint _ _ with ⟨e | size, s2⟩ <;> rw [hr] at h <;> dsimp only at h
        · cases h
          exact Stream.readUint_ne_EOL hr
        · split_ifs at h <;> cases h
          simp

theorem Stream.sizeError_ne_EOL (s : Stream) (n : Nat) : s.sizeError n ≠ some .EOL := by
  unfold Stream.sizeError
  split <;> split_ifs <;> simp

/-- `Kind` from a rearmed stream reports `EOL` exactly at the end of the innermost list. -/
theorem Stream.Kind_EOL_iff {s s' : Stream} (hk : s.kind = none)
    (h : s.Kind = (.error .EOL, s')) :
    ∃ tos, s.stack.head? = some tos ∧ tos.pos = tos.size ∧ s' = { s with kinderr := none } := by
  unfold Stream.Kind at h
  simp only [hk] at h
  split at h
  · rename_i hany
    obtain ⟨-, rfl⟩ := Prod.mk.inj h
    cases hs : s.stack.head? with
    | none => simp [hs] at hany
    | some tos => exact ⟨tos, rfl, by simpa [hs] using hany, by rw [hk]⟩
  · exfalso
    rcases hr : ({ s with kind := none, kinderr := none } : Stream).readKind with
      ⟨⟨k, size, _ | err⟩, s1⟩ <;> rw [hr] at h <;> dsimp only at h
    · -- the size check is the only error left, and it is never `EOL`
      rcases he : s1.sizeError size with _ | e <;> rw [he] at h <;> dsimp only at h <;> cases h
      exact Stream.sizeError_ne_EOL s1 size he
    · cases h
      exact Stream.readKind_ne_EOL hr rfl

/-- `sizeError` passes every size there is room for. -/
theorem Stream.sizeError_of_room {s : Stream} {n : Nat} (h : s.Room n) : s.sizeError n = none := by
  obtain ⟨hlim, hlist⟩ := h
  unfold Stream.sizeError
  cases hs : s.stack with
  | nil =>
      cases hl : s.limited
      · simp
      · simpa using hlim hl
  | cons tos rest =>
      have htos := hlist tos (by simp [hs])
      simp only [gt_iff_lt, ite_eq_right_iff, reduceCtorEq, imp_false, not_lt]
      exact htos

/-- **What a successful `Kind` did** from a rearmed stream: `readKind` without error, a
passed size check, and the cache filled. -/
theorem Stream.Kind_ok {s s1 : Stream} {k : Rlp.Kind} {n : Nat} (hk : s.kind = none)
    (h : s.Kind = (.ok (k, n), s1)) :
    ∃ s2, ({ s with kind := none, kinderr := none } : Stream).readKind = ((k, n, none), s2) ∧
      s2.sizeError n = none ∧ s1 = { s2 with kind := some k, size := n, kinderr := none } := by
  unfold Stream.Kind at h
  simp only [hk] at h
  split at h
  · cases h
  · rcases hr : ({ s with kind := none, kinderr := none } : Stream).readKind with
      ⟨⟨k', n', _ | err⟩, s2⟩ <;> rw [hr] at h <;> dsimp only at h
    · rcases he : s2.sizeError n' with _ | e <;> rw [he] at h <;> dsimp only at h <;> cases h
      exact ⟨s2, rfl, he, rfl⟩
    · cases h

/-- A cached `Byte` is returned as a one-byte string and the cache rearmed. -/
theorem Stream.Bytes_byte {s : Stream} (hk : s.kind = some .Byte) (he : s.kinderr = none) :
    s.Bytes = (.ok [s.byteval], { s with kind := none }) := by
  simp [Stream.Bytes, Stream.Kind_cached hk he]

/-- A cached `String` whose contents are there is read whole; only a lone byte below
`0x80` is refused. -/
theorem Stream.Bytes_string {s : Stream} (hk : s.kind = some .String) (he : s.kinderr = none)
    (hroom : s.Room s.size) (hlen : s.size ≤ s.r.length)
    (hcanon : ¬(s.size = 1 ∧ s.r.headD 0 < 128)) :
    s.Bytes = (.ok (s.r.take s.size), s.consume s.size) := by
  have hhead : (s.r.take s.size).headD 0 = s.r.headD 0 ∨ s.size ≠ 1 := by
    cases hr : s.r <;> cases hs : s.size <;> simp_all
  simp only [Stream.Bytes, Stream.Kind_cached hk he, Stream.readFull_eq hroom hlen]
  rw [if_neg]
  rintro ⟨h1, h2⟩
  rcases hhead with hh | hh
  · exact hcanon ⟨h1, hh ▸ h2⟩
  · exact hh h1

/-- **What a successful `Bytes` did** from a cached kind: either the cached single byte, or
the whole contents of a string, never a lone byte below `0x80`. -/
theorem Stream.Bytes_ok {s s' : Stream} {k : Rlp.Kind} {b : Ethcore.Bytes}
    (hk : s.kind = some k) (he : s.kinderr = none) (h : s.Bytes = (.ok b, s')) :
    (k = .Byte ∧ b = [s.byteval] ∧ s' = { s with kind := none }) ∨
    (k = .String ∧ b.length = s.size ∧ s.r = b ++ s'.r ∧ s' = s.consume s.size ∧
      ¬(b.length = 1 ∧ b.headD 0 < 128)) := by
  unfold Stream.Bytes at h
  rw [Stream.Kind_cached hk he] at h
  cases k with
  | Byte =>
      cases h
      exact .inl ⟨rfl, rfl, rfl⟩
  | String =>
      dsimp only at h
      rcases hf : s.readFull s.size with ⟨e | buf, s1⟩ <;> rw [hf] at h <;> dsimp only at h
      · cases h
      · obtain ⟨-, hlen, hr, rfl⟩ := Stream.readFull_ok hf
        split_ifs at h with hc
        · cases h
        · cases h
          exact .inr ⟨rfl, hlen, hr, rfl, by rw [hlen]; exact hc⟩
  | List => cases h

/-- `Bytes` after a successful `Kind` never reports `EOL`. -/
theorem Stream.Bytes_ne_EOL {s s' : Stream} {k : Rlp.Kind} {err : Error}
    (hk : s.kind = some k) (he : s.kinderr = none) (h : s.Bytes = (.error err, s')) :
    err ≠ .EOL := by
  unfold Stream.Bytes at h
  rw [Stream.Kind_cached hk he] at h
  cases k with
  | Byte => cases h
  | String =>
      dsimp only at h
      rcases hf : s.readFull s.size with ⟨e | buf, s1⟩ <;> rw [hf] at h <;> dsimp only at h
      · cases h
        exact Stream.readFull_ne_EOL hf
      · split_ifs at h <;> cases h
        simp
  | List =>
      cases h
      simp

/-- A cached `List` is entered: its size is pushed with nothing of it consumed. -/
theorem Stream.List_cached {s : Stream} (hk : s.kind = some .List) (he : s.kinderr = none) :
    s.List = (.ok s.size, { s with stack := ⟨0, s.size⟩ :: s.stack, kind := none, size := 0 }) := by
  simp [Stream.List, Stream.Kind_cached hk he]

/-! ### Position: how far a stream has moved -/

/-- `t` is `n` bytes further into the input than `s`: the reader, the limit and the
innermost list have all moved by `n`, whatever the value cache holds. -/
structure Stream.Past (t s : Stream) (n : Nat) : Prop where
  r : t.r = s.r.drop n
  remaining : t.remaining = (s.charge n).remaining
  limited : t.limited = s.limited
  stack : t.stack = (s.charge n).stack

theorem Stream.Past.refl (s : Stream) : s.Past s 0 := by
  refine ⟨by simp, ?_, rfl, ?_⟩
  · cases s.limited <;> simp [Stream.charge]
  · unfold Stream.charge
    cases s.stack <;> simp

theorem Stream.past_consume (s : Stream) (n : Nat) : (s.consume n).Past s n :=
  ⟨rfl, rfl, rfl, rfl⟩

theorem Stream.Past.trans {u t s : Stream} {n m : Nat} (hu : u.Past t m) (ht : t.Past s n) :
    u.Past s (n + m) := by
  obtain ⟨hur, hurem, hulim, hustack⟩ := hu
  obtain ⟨htr, htrem, htlim, htstack⟩ := ht
  refine ⟨by rw [hur, htr, List.drop_drop, Nat.add_comm], ?_, hulim.trans htlim, ?_⟩
  · unfold Stream.charge at *
    rw [hurem, htlim, htrem]
    cases s.limited <;> simp [Nat.sub_sub]
  · unfold Stream.charge at *
    rw [hustack, htstack]
    cases s.stack <;> simp [Nat.add_assoc]

/-- The innermost list after a move of `n` bytes. -/
theorem Stream.Past.head {t s : Stream} {n : Nat} {tos : ListPos} (h : t.Past s n)
    (hs : s.stack.head? = some tos) : t.stack.head? = some ⟨tos.pos + n, tos.size⟩ := by
  rw [h.stack]
  unfold Stream.charge
  cases hst : s.stack with
  | nil => simp [hst] at hs
  | cons tos' rest =>
      simp only [hst, List.head?_cons, Option.some.injEq] at hs ⊢
      rw [hs]

/-- What is left of the limit after a move of `n` bytes that fitted. -/
theorem Stream.Past.remaining_sub {t s : Stream} {n : Nat} (h : t.Past s n) (hl : s.limited = true) :
    t.remaining = s.remaining - n := by
  rw [h.remaining]
  simp [Stream.charge, hl]

/-- **Closing a list.**  After `m` bytes read inside a list entered with declared size
`size`, `ListEnd` succeeds exactly when `m = size`, and the enclosing list is then charged
the whole list. -/
theorem Stream.ListEnd_past {s t : Stream} {size m : Nat}
    (ht : t.Past { s with stack := ⟨0, size⟩ :: s.stack, kind := none, size := 0 } m) :
    t.ListEnd = if m = size then (none, { t with stack := (s.charge m).stack, kind := none, size := 0 })
      else (some .errNotAtEOL, t) := by
  have hstack : t.stack = ⟨m, size⟩ :: s.stack := by
    rw [ht.stack]
    simp [Stream.charge]
  unfold Stream.ListEnd
  rw [hstack]
  dsimp only
  by_cases hm : m = size
  · subst hm
    simp only [ne_eq, not_true_eq_false, if_false, if_true]
    congr 3
  · simp [hm]

/-- The stream `ListEnd_past` returns is the list's whole size past the stream that entered it. -/
theorem Stream.Past.listEnd {s t : Stream} {size m : Nat}
    (ht : t.Past { s with stack := ⟨0, size⟩ :: s.stack, kind := none, size := 0 } m) :
    ({ t with stack := (s.charge m).stack, kind := none, size := 0 } : Stream).Past s m :=
  ⟨ht.r, ht.remaining, ht.limited, rfl⟩

/-- Only the position fields matter to `Past`, on either side. -/
theorem Stream.Past.cache {t s : Stream} {n : Nat} (h : t.Past s n) (k : Option Rlp.Kind)
    (sz : Nat) (bv : UInt8) (e : Option Error) :
    ({ t with kind := k, size := sz, byteval := bv, kinderr := e } : Stream).Past s n :=
  ⟨h.r, h.remaining, h.limited, h.stack⟩

theorem Stream.Past.of_cache {t s : Stream} {n : Nat} {k : Option Rlp.Kind} {sz : Nat}
    {bv : UInt8} {e : Option Error}
    (h : t.Past ({ s with kind := k, size := sz, byteval := bv, kinderr := e } : Stream) n) :
    t.Past s n :=
  ⟨h.r, h.remaining, h.limited, h.stack⟩

/-- Room left after a move of `a` bytes out of `a + b`. -/
theorem Stream.Room.past {t s : Stream} {a b : Nat} (h : s.Room (a + b)) (ht : t.Past s a) :
    t.Room b := by
  have hc : (s.consume a).Room b := h.consume
  unfold Stream.Room at hc ⊢
  rw [ht.limited, ht.remaining, ht.stack]
  exact hc

theorem Stream.ListEnd_ne_EOL {s s' : Stream} {err : Error} (h : s.ListEnd = (some err, s')) :
    err ≠ .EOL := by
  unfold Stream.ListEnd at h
  split at h
  · cases h
    simp
  · split_ifs at h <;> cases h
    simp

/-- `Kind` reads back a single byte below `0x80`. -/
theorem Stream.Kind_single {s : Stream} {c : UInt8} {tail : Ethcore.Bytes} (hk : s.kind = none)
    (hc : c < 0x80) (hr : s.r = c :: tail) (h : s.Room 1) :
    ∃ s1, s.Kind = (.ok (.Byte, 0), s1) ∧ s1.Past s 1 ∧ s1.kind = some .Byte ∧
      s1.kinderr = none ∧ s1.byteval = c := by
  have hend : ∀ tos ∈ s.stack.head?, tos.pos ≠ tos.size := fun tos htos => by
    have := h.2 tos htos
    omega
  have hroom0 : ({ s with kind := none, kinderr := none } : Stream).consume 1 |>.Room 0 :=
    ⟨fun _ => Nat.zero_le _, fun _ _ => Nat.zero_le _⟩
  exact ⟨_, Stream.Kind_fresh hk hend (Stream.readKind_single hc hr h)
    (Stream.sizeError_of_room hroom0), ⟨rfl, rfl, rfl, rfl⟩, rfl, rfl, rfl⟩

/-- `Kind` reads back a string or list header as `lengthPrefix` writes it, when the whole
value has room. -/
theorem Stream.Kind_lengthPrefix {s : Stream} {o : UInt8} {k : Rlp.Kind}
    (hok : (o = 0x80 ∧ k = .String) ∨ (o = 0xC0 ∧ k = .List)) {n : Nat} (hn : n < 2 ^ 64)
    {tail : Ethcore.Bytes} (hk : s.kind = none) (hr : s.r = lengthPrefix o n ++ tail)
    (h : s.Room ((lengthPrefix o n).length + n)) :
    ∃ s1, s.Kind = (.ok (k, n), s1) ∧ s1.Past s (lengthPrefix o n).length ∧ s1.kind = some k ∧
      s1.kinderr = none ∧ s1.size = n := by
  have hpos := lengthPrefix_pos o n
  have hend : ∀ tos ∈ s.stack.head?, tos.pos ≠ tos.size := fun tos htos => by
    have := h.2 tos htos
    omega
  have hsize : ({ ({ s with kind := none, kinderr := none } : Stream).consume
      (lengthPrefix o n).length with byteval := 0 } : Stream).sizeError n = none :=
    Stream.sizeError_of_room h.consume
  exact ⟨_, Stream.Kind_fresh hk hend
    (Stream.readKind_lengthPrefix hok hn hr (h.mono (Nat.le_add_right _ _))) hsize,
    ⟨rfl, rfl, rfl, rfl⟩, rfl, rfl, rfl⟩

/-- **What a successful `Kind` accepts** from a rearmed stream: a header the encoder
writes for the kind and size returned, after which the stream has moved past the header
with the kind cached. -/
theorem Stream.Kind_accepts {s s1 : Stream} {k : Rlp.Kind} {n : Nat} (hk : s.kind = none)
    (h : s.Kind = (.ok (k, n), s1)) :
    ∃ hdr : Ethcore.Bytes, s.r = hdr ++ s1.r ∧ s1.Past s hdr.length ∧ s1.kind = some k ∧
      s1.kinderr = none ∧ s1.size = n ∧
      ((k = .Byte ∧ ∃ c, c < 0x80 ∧ hdr = [c] ∧ s1.byteval = c) ∨
       (k = .String ∧ n < 2 ^ 64 ∧ hdr = lengthPrefix 0x80 n) ∨
       (k = .List ∧ n < 2 ^ 64 ∧ hdr = lengthPrefix 0xC0 n)) := by
  obtain ⟨s2, hread, -, rfl⟩ := Stream.Kind_ok hk h
  obtain ⟨hdr, hr, -, hs2, hcases⟩ := Stream.readKind_ok hread
  have hp : s2.Past s hdr.length := by
    rw [hs2]
    exact ⟨rfl, rfl, rfl, rfl⟩
  refine ⟨hdr, hr, ⟨hp.r, hp.remaining, hp.limited, hp.stack⟩, rfl, rfl, rfl, ?_⟩
  rcases hcases with ⟨rfl, -, c, hc, rfl, hb⟩ | h2 | h3
  · exact .inl ⟨rfl, c, hc, rfl, hb⟩
  · exact .inr (.inl h2)
  · exact .inr (.inr h3)

end Rlp
end Ethcore
