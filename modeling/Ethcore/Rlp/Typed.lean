import Ethcore.Rlp.Encode
import Ethcore.Rlp.Decode

/-!
# Typed encoding and decoding: `makeWriter` and `makeDecoder`

The reflective codec of the package at the Go types built from unsigned integers, `bool`,
`string`, `*big.Int`, slices, arrays, structs of exported fields (with the tags
`rlp:"nil"` and `rlp:"tail"`) and pointers.  `Ty` describes such a type and `Val` a value
of it; the writer of each type works on the `encbuf` of `Encode.lean` and the decoder of
each type on the `Stream` of `Stream.lean`, each dispatching as `makeWriter` and
`makeDecoder` do.  As there, a byte is a `uint8`: a slice or array of `uint8` is written by
`writeBytes` or `writeByteArray` and read by `decodeByteSlice` or `decodeByteArray`.

`decodeByteArray` reads a one-byte `[1]byte` through `Stream.Uint` and ignores its error.
For the byte `0x00` that error is `ErrCanonInt`, returned before `Uint` consumes the byte:
the cached kind stays armed, and the next decoder reads the same byte again.  A `[1]byte`
holding `0` followed by anything else in its list does not decode back
(`DecodeBytes_array_of_zero_byte`).

Modelling choices: values are untyped trees (`Val`), and a writer given a value of another
type writes nothing (no Go value has that shape); nil and empty slices are one value; the
element loop of a slice decoder runs on the fuel of `Decode.lean`.
-/

namespace Ethcore
namespace Rlp

/-- The struct tags of a field, `rlp:"nil"` and `rlp:"tail"`. -/
structure Tags where
  nilOK : Bool
  tail : Bool

/-- `tags{}`: no tags. -/
def Tags.none : Tags := ⟨false, false⟩

mutual
/-- A Go type the codec supports; `uint 8` is `byte`. -/
inductive Ty where
  | uint (bits : Nat)
  | bool
  | string
  | bigInt
  | slice (elem : Ty)
  | array (len : Nat) (elem : Ty)
  | struct (name : String) (fields : Fields)
  | ptr (elem : Ty)

/-- The exported fields of a struct, in order, with their names and tags. -/
inductive Fields where
  | nil
  | cons (name : String) (ty : Ty) (tags : Tags) (rest : Fields)
end

/-- A Go value: `bytes` is the value of a `[]byte` or a `[N]byte`, `list` of any other
slice or array, `bigInt none` and `ptr none` are nil pointers. -/
inductive Val where
  | uint (n : Nat)
  | bool (b : Bool)
  | string (s : Bytes)
  | bigInt (i : Option Int)
  | bytes (b : Bytes)
  | list (vs : List Val)
  | struct (fs : List Val)
  | ptr (v : Option Val)

/-- `isByte`: whether a slice or array of this element type is a byte string. -/
def Ty.isByte : Ty → Bool
  | .uint 8 => true
  | _ => false

/-- The type's name as `reflect` prints it. -/
def Ty.name : Ty → String
  | .uint bits => "uint" ++ toString bits
  | .bool => "bool"
  | .string => "string"
  | .bigInt => "*big.Int"
  | .slice t => "[]" ++ t.name
  | .array n t => "[" ++ toString n ++ "]" ++ t.name
  | .struct name _ => name
  | .ptr t => "*" ++ t.name

mutual
/-- The zero value of a type. -/
def Ty.zero : Ty → Val
  | .uint _ => .uint 0
  | .bool => .bool false
  | .string => .string []
  | .bigInt => .bigInt none
  | .slice t => if t.isByte then .bytes [] else .list []
  | .array n t => if t.isByte then .bytes (List.replicate n 0) else .list (List.replicate n t.zero)
  | .struct _ fs => .struct fs.zeros
  | .ptr _ => .ptr none

/-- The zero values of a struct's fields. -/
def Fields.zeros : Fields → List Val
  | .nil => []
  | .cons _ t _ fs => t.zero :: fs.zeros
end

/-! ### Writers -/

/-- `writeUint`. -/
def writeUint (i : Nat) (w : Encbuf) : Encbuf :=
  if i = 0 then w.Write [0x80]
  else if i < 128 then w.Write [UInt8.ofNat i]
  else
    let s := putint i
    w.Write ((0x80 + UInt8.ofNat s.length) :: s)

/-- `writeBool`. -/
def writeBool (b : Bool) (w : Encbuf) : Encbuf :=
  if b then w.Write [0x01] else w.Write [0x80]

/-- `writeString`: a single byte up to `0x7F` is written bare. -/
def writeString (s : Bytes) (w : Encbuf) : Encbuf :=
  match s with
  | [c] => if c ≤ 0x7F then w.Write [c] else (w.encodeStringHeader 1).Write [c]
  | s => (w.encodeStringHeader s.length).Write s

/-- `writeBigInt`, with `writeBigIntPtr`'s nil case: nil and zero are the empty string. -/
def writeBigIntPtr (i : Option Int) (w : Encbuf) : Except Error Encbuf :=
  match i with
  | none => .ok (w.Write [0x80])
  | some i =>
      if i < 0 then .error (.errorf "rlp: cannot encode negative *big.Int")
      else if i = 0 then .ok (w.Write [0x80])
      else .ok (w.encodeString (BigEndian.minimal i.toNat))

/-- `writeByteArray`: the array's bytes as a string. -/
def writeByteArray (b : Bytes) (w : Encbuf) : Encbuf :=
  w.encodeString b

/-- The element loop of the slice writer, for any element writer. -/
def writeElemsWith (wr : Val → Encbuf → Except Error Encbuf) : List Val → Encbuf → Except Error Encbuf
  | [], w => .ok w
  | v :: vs, w => (wr v w).bind (writeElemsWith wr vs)

/-- `makeSliceWriter`: a list of the elements; a `tail` slice writes its elements into the
enclosing list. -/
def writeSlice (wr : Val → Encbuf → Except Error Encbuf) (ts : Tags) (vs : List Val)
    (w : Encbuf) : Except Error Encbuf :=
  if ts.tail then writeElemsWith wr vs w
  else
    let (lh, w) := w.list
    (writeElemsWith wr vs w).map (·.listEnd lh)

mutual
/-- `makeWriter`: the writer of a type, with the tags of the field it is written from. -/
def write : Ty → Tags → Val → Encbuf → Except Error Encbuf
  | .uint _, _, .uint i, w => .ok (writeUint i w)
  | .bool, _, .bool b, w => .ok (writeBool b w)
  | .string, _, .string s, w => .ok (writeString s w)
  | .bigInt, _, .bigInt i, w => writeBigIntPtr i w
  | .slice t, ts, v, w =>
      if t.isByte then
        match v with
        | .bytes b => .ok (writeBytes b w)
        | _ => .ok w
      else
        match v with
        | .list vs => writeSlice (write t Tags.none) ts vs w
        | _ => .ok w
  | .array _ t, ts, v, w =>
      if t.isByte then
        match v with
        | .bytes b => .ok (writeByteArray b w)
        | _ => .ok w
      else
        match v with
        | .list vs => writeSlice (write t Tags.none) ts vs w
        | _ => .ok w
  | .struct _ fs, _, .struct vs, w =>
      let (lh, w) := w.list
      (writeFields fs vs w).map (·.listEnd lh)
  | .ptr t, _, .ptr (some v), w => write t Tags.none v w
  | .ptr t, _, .ptr none, w =>
      -- `makePtrWriter`'s nil handler
      match t with
      | .array _ e => if e.isByte then .ok (w.Write [0x80]) else .ok ((w.list.2).listEnd w.list.1)
      | .struct _ _ => .ok ((w.list.2).listEnd w.list.1)
      | t => write t Tags.none t.zero w
  | _, _, _, w => .ok w

/-- `makeStructWriter`'s loop over the fields. -/
def writeFields : Fields → List Val → Encbuf → Except Error Encbuf
  | .cons _ t ts fs, v :: vs, w => (write t ts v w).bind (writeFields fs vs)
  | _, _, w => .ok w
end

/-- `EncodeToBytes` of a value of type `t`. -/
def EncodeToBytesTy (t : Ty) (v : Val) : Except Error Bytes :=
  (write t Tags.none v Encbuf.empty).map Encbuf.toBytes

/-! ### Decoders -/

/-- `Bool`: an integer of at most one byte, `0` or `1`. -/
def Stream.Bool (s : Stream) : Except Error Bool × Stream :=
  match s.uint 8 with
  | (.error err, s) => (.error err, s)
  | (.ok 0, s) => (.ok false, s)
  | (.ok 1, s) => (.ok true, s)
  | (.ok num, s) => (.error (.errorf ("rlp: invalid boolean value: " ++ toString num)), s)

/-- The element loop of `decodeListArray`: at most `k` more elements, from index `i`; it
stops early at the end of the list. -/
def decodeArrayElems {α : Type} (elemdec : Decoder α) :
    Nat → Nat → Stream → List α → Option (Except Error (List α) × Stream)
  | 0, _, s, acc => some (.ok acc, s)
  | k + 1, i, s, acc =>
      match elemdec s with
      | none => none
      | some (.error .EOL, s) => some (.ok acc, s)
      | some (.error err, s) => some (.error (addErrorContext err ("[" ++ toString i ++ "]")), s)
      | some (.ok x, s) => decodeArrayElems elemdec k (i + 1) s (acc ++ [x])

/-- `decodeListArray`: a list of exactly `vlen` elements. -/
def decodeListArray {α : Type} (elemdec : Decoder α) (typ : String) (vlen : Nat)
    (s : Stream) : Option (Except Error (List α) × Stream) :=
  match s.List with
  | (.error err, s) => some (.error (wrapStreamError err typ), s)
  | (.ok _, s) =>
      match decodeArrayElems elemdec vlen 0 s [] with
      | none => none
      | some (.error err, s) => some (.error err, s)
      | some (.ok xs, s) =>
          if xs.length < vlen then
            some (.error (.decodeError "input list has too few elements" typ []), s)
          else
            match s.ListEnd with
            | (some err, s) => some (.error (wrapStreamError err typ), s)
            | (none, s) => some (.ok xs, s)

/-- `decodeByteArray`: a string of exactly `vlen` bytes.  A single byte is read with
`Uint`, whose error is ignored. -/
def decodeByteArray (typ : String) (vlen : Nat) (s : Stream) : Except Error Bytes × Stream :=
  match s.Kind with
  | (.error err, s) => (.error err, s)
  | (.ok (.Byte, _), s) =>
      if vlen = 0 then (.error (.decodeError "input string too long" typ []), s)
      else if vlen > 1 then (.error (.decodeError "input string too short" typ []), s)
      else
        let (bv, s) := s.Uint
        let bv := match bv with
          | .ok bv => bv
          | .error _ => 0
        (.ok [UInt8.ofNat bv], s)
  | (.ok (.String, size), s) =>
      if vlen < size then (.error (.decodeError "input string too long" typ []), s)
      else if vlen > size then (.error (.decodeError "input string too short" typ []), s)
      else
        match s.readFull vlen with
        | (.error err, s) => (.error err, s)
        | (.ok slice, s) =>
            -- reject cases where single byte encoding should have been used
            if size = 1 ∧ slice.headD 0 < 128 then (.error (wrapStreamError .ErrCanonSize typ), s)
            else (.ok slice, s)
  | (.ok (.List, _), s) => (.error (wrapStreamError .ErrExpectedString typ), s)

/-- A stream read whose error is wrapped with the target type, as a decoder. -/
def liftRead {α : Type} (typ : String) (f : Stream → Except Error α × Stream) :
    Decoder α := fun s =>
  match f s with
  | (.error err, s) => some (.error (wrapStreamError err typ), s)
  | (.ok x, s) => some (.ok x, s)

/-- `decodeBigInt`: a string without leading zero bytes. -/
def decodeBigInt (s : Stream) : Option (Except Error Val × Stream) :=
  match s.Bytes with
  | (.error err, s) => some (.error (wrapStreamError err Ty.bigInt.name), s)
  | (.ok b, s) =>
      if b.length > 0 ∧ b.headD 0 = 0 then
        some (.error (wrapStreamError .ErrCanonInt Ty.bigInt.name), s)
      else some (.ok (.bigInt (some (BigEndian.value b))), s)

mutual
/-- `makeDecoder`: the decoder of a type, with the tags of the field it decodes into; slice
element loops run on `fuel`. -/
def decodeTy (fuel : Nat) : Ty → Tags → Decoder Val
  | .uint bits, _ => fun s => (liftRead (Ty.uint bits).name (Stream.uint bits) s).map
      fun (r, s) => (r.map .uint, s)
  | .bool, _ => fun s => (liftRead Ty.bool.name Stream.Bool s).map fun (r, s) => (r.map .bool, s)
  | .string, _ => fun s => (liftRead Ty.string.name Stream.Bytes s).map
      fun (r, s) => (r.map .string, s)
  | .bigInt, _ => decodeBigInt
  | .slice t, ts => fun s =>
      if t.isByte then
        -- decodeByteSlice
        (liftRead (Ty.slice t).name Stream.Bytes s).map fun (r, s) => (r.map .bytes, s)
      else if ts.tail then
        (decodeSliceElems (decodeTy fuel t Tags.none) fuel 0 s []).map
          fun (r, s) => (r.map .list, s)
      else
        (decodeListSlice (decodeTy fuel t Tags.none) (Ty.slice t).name fuel s).map
          fun (r, s) => (r.map .list, s)
  | .array n t, _ => fun s =>
      if t.isByte then
        match decodeByteArray (Ty.array n t).name n s with
        | (r, s) => some (r.map .bytes, s)
      else
        (decodeListArray (decodeTy fuel t Tags.none) (Ty.array n t).name n s).map
          fun (r, s) => (r.map .list, s)
  | .struct name fs, _ => fun s =>
      match s.List with
      | (.error err, s) => some (.error (wrapStreamError err name), s)
      | (.ok _, s) =>
          match decodeFields fuel name fs s with
          | none => none
          | some (.error err, s) => some (.error err, s)
          | some (.ok vs, s) =>
              match s.ListEnd with
              | (some err, s) => some (.error (wrapStreamError err name), s)
              | (none, s) => some (.ok (.struct vs), s)
  | .ptr t, ts => fun s =>
      if ts.nilOK then
        -- makeOptionalPtrDecoder: an empty string or list is nil, and is skipped
        match s.Kind with
        | (.error err, s) => some (.error err, { s with kind := none })
        | (.ok (kind, size), s) =>
            if size = 0 ∧ kind ≠ .Byte then some (.ok (.ptr none), { s with kind := none })
            else (decodeTy fuel t Tags.none s).map fun (r, s) => (r.map (.ptr ∘ some), s)
      else (decodeTy fuel t Tags.none s).map fun (r, s) => (r.map (.ptr ∘ some), s)

/-- The loop of `makeStructDecoder` over the fields. -/
def decodeFields (fuel : Nat) (name : String) : Fields → Decoder (List Val)
  | .nil => fun s => some (.ok [], s)
  | .cons fname t ts fs => fun s =>
      match decodeTy fuel t ts s with
      | none => none
      | some (.error .EOL, s) => some (.error (.decodeError "too few elements" name []), s)
      | some (.error err, s) => some (.error (addErrorContext err ("." ++ fname)), s)
      | some (.ok v, s) =>
          (decodeFields fuel name fs s).map fun (r, s) => (r.map (v :: ·), s)
end

/-- `(*Stream).Decode` into a value of type `t`: an error with a context path also names
the target type. -/
def Stream.DecodeTy (t : Ty) (fuel : Nat) (s : Stream) : Option (Except Error Val × Stream) :=
  match decodeTy fuel t Tags.none s with
  | some (.error (.decodeError msg typ ctx), s) =>
      if ctx.isEmpty then some (.error (.decodeError msg typ ctx), s)
      else some (.error (.decodeError msg typ (ctx ++ ["(" ++ t.name ++ ")"])), s)
  | r => r

/-- `DecodeBytes` into a value of type `t`: one value, and nothing after it. -/
def DecodeBytesTy (t : Ty) (b : Bytes) : Option (Except Error Val) :=
  match (Stream.NewStream b b.length).DecodeTy t (b.length + 1) with
  | none => none
  | some (.error err, _) => some (.error err)
  | some (.ok v, s) => if s.r.length > 0 then some (.error .ErrMoreThanOneValue) else some (.ok v)

/-! ### A zero byte in a `[1]byte` is read twice -/

/-- With the byte `0` cached as the next value, `decodeByteArray` of a `[1]byte` returns
`[0]` and leaves the stream as it was: `Uint` fails with `ErrCanonInt` before it rearms the
cached kind, and its error is dropped. -/
theorem decodeByteArray_cached_zero {s : Stream} (typ : String) (hk : s.kind = some .Byte)
    (he : s.kinderr = none) (hb : s.byteval = 0) :
    decodeByteArray typ 1 s = (.ok [0], s) := by
  simp [decodeByteArray, Stream.Kind, hk, he, Stream.Uint, Stream.uint, hb]

/-- So every further `[1]byte` element of an array reads the same zero byte, and the stream
does not move. -/
theorem decodeArrayElems_cached_zero {s : Stream} {fuel : Nat} (hk : s.kind = some .Byte)
    (he : s.kinderr = none) (hb : s.byteval = 0) (k i : Nat) (acc : List Val) :
    decodeArrayElems (decodeTy fuel (.array 1 (.uint 8)) Tags.none) k i s acc =
      some (.ok (acc ++ List.replicate k (.bytes [0])), s) := by
  induction k generalizing i acc with
  | zero => simp [decodeArrayElems]
  | succ k ih =>
      have hdec : decodeTy fuel (.array 1 (.uint 8)) Tags.none s = some (.ok (.bytes [0]), s) := by
        simp [decodeTy, Ty.isByte, decodeByteArray_cached_zero _ hk he hb, Except.map]
      rw [decodeArrayElems, hdec]
      simp only [ih, List.append_assoc, List.replicate_succ, List.singleton_append]

/-- The array `[2][1]byte{{0}, {5}}` is written as `C2 00 05`, which does not decode back:
the second element re-reads the zero byte, and the list then ends with `05` unread. -/
theorem DecodeBytes_array_of_zero_byte :
    EncodeToBytesTy (.array 2 (.array 1 (.uint 8))) (.list [.bytes [0], .bytes [5]]) =
        .ok [0xC2, 0x00, 0x05] ∧
      DecodeBytesTy (.array 2 (.array 1 (.uint 8))) [0xC2, 0x00, 0x05] =
        some (.error (.decodeError "input list has too many elements"
          (Ty.array 2 (.array 1 (.uint 8))).name [])) := by
  constructor
  · simp [EncodeToBytesTy, write, Ty.isByte, writeSlice, writeElemsWith, writeByteArray,
      Encbuf.encodeString, Encbuf.list, Encbuf.empty, Encbuf.Write, Encbuf.listEnd,
      Encbuf.toBytes, Encbuf.spliceHeads, Encbuf.size, ListHead.encode, puthead, Tags.none,
      Except.bind, Except.map]
  · simp [DecodeBytesTy, Stream.DecodeTy, decodeTy, Ty.isByte, decodeListArray,
      decodeArrayElems, decodeByteArray, Stream.NewStream, Stream.List, Stream.Kind,
      Stream.readKind, Stream.readByte, Stream.willRead, Stream.checkLimit, Stream.sizeError,
      Stream.Uint, Stream.uint, Stream.ListEnd, wrapStreamError, Except.map]

end Rlp
end Ethcore
