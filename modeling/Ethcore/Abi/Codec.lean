import Ethcore.Common.Bytes

/-!
# Packing and unpacking method arguments: `accounts/abi`

`Method.pack` writes one 32-byte slot per argument: the value itself for a static type, and
for a string, a byte string or a slice the offset of its encoding in a tail that follows the
slots.  `toGoType` reads the value of output slot `i` back as a Go value, following the
offset for strings and byte strings, and `toGoSlice` does so for slices.  Offsets and lengths
are `uint64` words converted to `int`, and the sums and products over them wrap as Go's `int`
does (`wrapInt64`); a slice out of range is a panic, `none`.

Go values are modelled by their reflection: `Value` has the kinds the codec handles, and a
`[]byte` is a slice of `uint8` values, so that the packing of a slice recurses on its
elements.  Every integer is packed through `U256`, two's complement for negative values, but
a `*big.Int` is read back with `SetBytes`, as an unsigned number (`toGoType_pack_int256`).
-/

namespace Ethcore
namespace Abi

/-- `reflect.Kind`, for the kinds the codec handles; `Invalid` is the zero value. -/
inductive Kind where
  | Invalid | Bool | Int | Int8 | Int16 | Int32 | Int64
  | Uint | Uint8 | Uint16 | Uint32 | Uint64 | Array | Ptr | Slice | String
  deriving DecidableEq, Repr

/-- The ABI type tags `T`; `IntTy` is the zero value. -/
inductive Tag where
  | IntTy | UintTy | BoolTy | StringTy | SliceTy | AddressTy | FixedBytesTy | BytesTy | HashTy
  | RealTy
  deriving DecidableEq, Repr

/-- `abi.Type`, the fields the codec reads; the defaults are Go's zero values. -/
structure AbiType where
  IsSlice : Bool := false
  IsArray : Bool := false
  SliceSize : Int := 0
  Elem : Option AbiType := none
  Kind : Kind := .Invalid
  Size : Int := 0
  T : Tag := .IntTy
  deriving Repr

/-- `reflectIntKind`: the Go integer kind of an ABI integer size, `*big.Int` for the others. -/
def reflectIntKind (unsigned : Bool) (size : Nat) : Kind :=
  match size with
  | 8 => if unsigned then .Uint8 else .Int8
  | 16 => if unsigned then .Uint16 else .Int16
  | 32 => if unsigned then .Uint32 else .Int32
  | 64 => if unsigned then .Uint64 else .Int64
  | _ => .Ptr

/-! The types `NewType` builds from a type string, one per case of its switch. -/

namespace NewType

def int (varSize : Nat) : AbiType := { Kind := reflectIntKind false varSize, Size := varSize }

def uint (varSize : Nat) : AbiType :=
  { Kind := reflectIntKind true varSize, Size := varSize, T := .UintTy }

def bool : AbiType := { Kind := .Bool, T := .BoolTy }

def address : AbiType := { Kind := .Array, Size := 20, T := .AddressTy }

def string : AbiType := { Kind := .String, Size := -1, T := .StringTy }

/-- `bytes` for size 0, `bytesN` otherwise. -/
def bytes (varSize : Nat) : AbiType :=
  if varSize = 0 then { Elem := some (uint 8), IsSlice := true, T := .BytesTy, SliceSize := -1 }
  else { Elem := some (uint 8), IsArray := true, T := .FixedBytesTy, SliceSize := varSize }

/-- `T[]`: the element type, and the tag left at its zero value. -/
def slice (elem : AbiType) : AbiType := { IsSlice := true, SliceSize := -1, Elem := some elem }

end NewType

/-- A Go value, by its reflection: integers of a kind, `*big.Int`, `bool`, `string`, and
slices and arrays of values with their element kind. -/
inductive Value where
  | uint (k : Kind) (n : Nat)
  | int (k : Kind) (n : Int)
  | big (n : Int)
  | bool (b : Bool)
  | str (s : Bytes)
  | slice (elem : Kind) (vs : List Value)
  | array (elem : Kind) (vs : List Value)
  deriving Repr

namespace Value

/-- A `[]byte`. -/
def ofBytes (bs : Bytes) : Value := .slice .Uint8 (bs.map fun b => .uint .Uint8 b.toNat)

/-- A byte array such as `common.Address`. -/
def ofByteArray (bs : Bytes) : Value := .array .Uint8 (bs.map fun b => .uint .Uint8 b.toNat)

/-- `Kind()`. -/
def Kind : Value → Abi.Kind
  | .uint k _ => k
  | .int k _ => k
  | .big _ => .Ptr
  | .bool _ => .Bool
  | .str _ => .String
  | .slice _ _ => .Slice
  | .array _ _ => .Array

/-- `Type().Elem().Kind()` of a slice or an array. -/
def ElemKind : Value → Abi.Kind
  | .slice k _ => k
  | .array k _ => k
  | _ => .Invalid

/-- `Len()` of a string, a slice or an array. -/
def Len : Value → Nat
  | .str s => s.length
  | .slice _ vs => vs.length
  | .array _ vs => vs.length
  | _ => 0

/-- `Index(i)`; `none` is the panic out of range. -/
def Index (v : Value) (i : Nat) : Option Value :=
  match v with
  | .slice _ vs => vs[i]?
  | .array _ vs => vs[i]?
  | _ => none

/-- `Bytes()` of a byte slice or array, and the bytes of a string. -/
def Bytes : Value → Ethcore.Bytes
  | .str s => s
  | .slice _ vs => vs.map fun | .uint _ n => UInt8.ofNat n | _ => 0
  | .array _ vs => vs.map fun | .uint _ n => UInt8.ofNat n | _ => 0
  | _ => []

/-- `Bool()`. -/
def Bool : Value → Bool
  | .bool b => b
  | _ => false

end Value

/-- The errors of packing and unpacking. -/
inductive AbiError where
  /-- "argument count mismatch: %d for %d" -/
  | argumentCount (got want : Nat)
  /-- `typeErr`, "abi: cannot use %v as type %v as argument" -/
  | typeErr
  /-- "abi: cannot marshal in to go type (slice): insufficient size or length" -/
  | insufficientSize
  /-- "abi: unsupported slice type %v" -/
  | unsupportedSliceType
  /-- "abi: unknown type %v" -/
  | unknownType
  /-- "abi: unmarshalling empty output" -/
  | emptyOutput
  /-- "abi: Unpack(non-pointer %T)" -/
  | nonPointer
  /-- "abi: cannot marshal tuple in to slice %T (only []interface{} is supported)" -/
  | tupleSlice
  /-- "abi: cannot marshal in to slices of unequal size (require: %v, got: %v)" -/
  | unequalSize (require got : Nat)
  /-- "abi: cannot unmarshal tuple in to %v" -/
  | tupleInto
  /-- "abi: cannot unmarshal %v in to array of elem %v" -/
  | arrayElem
  /-- "abi: cannot unmarshal src (len=%d) in to dst (len=%d)" -/
  | arrayLen
  /-- "abi: cannot unmarshal %v in to %v" -/
  | cannotUnmarshal
  deriving DecidableEq, Repr

/-! ### Packing -/

/-- `sliceTypeCheck`: a slice or array value of the right length whose element kind is the
element type's; `none` is the panic of `Index(0)` on an empty array. -/
def sliceTypeCheck (t : AbiType) (val : Value) : Option (Except AbiError Unit) :=
  if val.Kind ≠ .Slice ∧ val.Kind ≠ .Array then some (.error .typeErr)
  else if t.IsArray ∧ (val.Len : Int) ≠ t.SliceSize then some (.error .typeErr)
  else
    match h : t.Elem with
    | none => none
    | some elem =>
      let elemCheck : Option (Except AbiError Unit) :=
        if val.ElemKind ≠ elem.Kind then some (.error .typeErr) else some (.ok ())
      if elem.IsSlice then
        if val.Len > 0 then (val.Index 0).bind fun v => sliceTypeCheck elem v else elemCheck
      else if elem.IsArray then (val.Index 0).bind fun v => sliceTypeCheck elem v
      else elemCheck
termination_by t
decreasing_by all_goals (cases t; simp_all; omega)

/-- `typeCheck`: the value has the kind of the type. -/
def typeCheck (t : AbiType) (value : Value) : Option (Except AbiError Unit) :=
  if t.IsSlice ∨ t.IsArray then sliceTypeCheck t value
  else if t.Kind ≠ value.Kind then some (.error .typeErr)
  else some (.ok ())

/-- `abi.U256`: a number as a 32-byte word, two's complement for a negative one. -/
def U256 (n : Int) : Ethcore.Bytes := Common.LeftPadBytes (BigEndian.minimal (Common.U256 n).toNat) 32

/-- `packNum`: an integer or a `*big.Int` as a word; `nil` for any other value. -/
def packNum : Value → Ethcore.Bytes
  | .uint _ n => U256 n
  | .int _ n => U256 n
  | .big n => U256 n
  | _ => []

/-- `packBytesSlice`: the length `l` as a word, then the bytes padded to whole words. -/
def packBytesSlice (bytes : Ethcore.Bytes) (l : Nat) : Ethcore.Bytes :=
  packNum (.int .Int l) ++ Common.RightPadBytes bytes ((l + 31) / 32 * 32)

/-- `packElement`: a value of a non-slice type; `none` is the panic on another tag. -/
def packElement (t : AbiType) (v : Value) : Option Ethcore.Bytes :=
  match t.T with
  | .IntTy | .UintTy => some (packNum v)
  | .StringTy => some (packBytesSlice v.Bytes v.Len)
  | .AddressTy => some (Common.LeftPadBytes v.Bytes 32)
  | .BoolTy => some (Common.LeftPadBytes (if v.Bool then [1] else []) 32)
  | .BytesTy => some (packBytesSlice v.Bytes v.Len)
  | .FixedBytesTy => some (Common.RightPadBytes v.Bytes 32)
  | _ => none

mutual

/-- `Type.pack`: a slice's elements one after another behind its length, any other value by
`packElement`. -/
def AbiType.pack (t : AbiType) (v : Value) : Option (Except AbiError Ethcore.Bytes) :=
  match typeCheck t v with
  | none => none
  | some (.error e) => some (.error e)
  | some (.ok ()) =>
    if (t.IsSlice || t.IsArray) && t.T != .BytesTy && t.T != .FixedBytesTy then
      match t.Elem, v with
      | some elem, .slice _ vs => (packElems elem vs).map (·.map (packBytesSlice · vs.length))
      | some elem, .array _ vs => (packElems elem vs).map (·.map (packBytesSlice · vs.length))
      | _, _ => none
    else (packElement t v).map .ok

/-- The loop of `Type.pack` over a slice's elements. -/
def packElems (elem : AbiType) : List Value → Option (Except AbiError Ethcore.Bytes)
  | [] => some (.ok [])
  | v :: vs =>
    match elem.pack v with
    | none => none
    | some (.error e) => some (.error e)
    | some (.ok val) => (packElems elem vs).map (·.map (val ++ ·))

end

/-- `requiresLengthPrefix`: strings, byte strings and slices go to the tail. -/
def AbiType.requiresLengthPrefix (t : AbiType) : Bool :=
  t.T != .FixedBytesTy && (t.T == .StringTy || t.T == .BytesTy || t.IsSlice || t.IsArray)

/-- `Argument`: the type of one argument. -/
structure Argument where
  type : AbiType

/-- An output argument: `Unpack` reads its `Name` as well as its type. -/
structure Output extends Argument where
  Name : Ethcore.Bytes

/-- `Method`, its inputs and outputs. -/
structure Method where
  Inputs : List Argument
  Outputs : List Output := []

/-- The loop of `Method.pack`: the slots `ret` so far and the tail `variableInput`. -/
def packArgs (n : Nat) : List (Argument × Value) → Ethcore.Bytes → Ethcore.Bytes →
    Option (Except AbiError Ethcore.Bytes)
  | [], ret, variableInput => some (.ok (ret ++ variableInput))
  | (input, a) :: rest, ret, variableInput =>
    match input.type.pack a with
    | none => none
    | some (.error e) => some (.error e)
    | some (.ok packed) =>
      if input.type.requiresLengthPrefix then
        -- the slot holds the offset of the value in the tail
        let offset := n * 32 + variableInput.length
        packArgs n rest (ret ++ packNum (.int .Int offset)) (variableInput ++ packed)
      else packArgs n rest (ret ++ packed) variableInput

/-- `Method.pack`, without the method id. -/
def Method.pack (method : Method) (args : List Value) : Option (Except AbiError Ethcore.Bytes) :=
  if args.length ≠ method.Inputs.length then
    some (.error (.argumentCount args.length method.Inputs.length))
  else packArgs method.Inputs.length (method.Inputs.zip args) [] []

/-! ### Unpacking -/

/-- `int(x)` of a `uint64`: two's complement in 64 bits. -/
def toInt (x : Nat) : Int := if x < 2 ^ 63 then x else x - 2 ^ 64

/-- `new(big.Int).SetBytes(bs).Uint64()`. -/
def bigUint64 (bs : Ethcore.Bytes) : Nat := BigEndian.value bs % 2 ^ 64

/-- A Go integer conversion to `bits` bits, signed or not. -/
def wrapInt (signed : Bool) (bits : Nat) (x : Int) : Int :=
  let m := x % 2 ^ bits
  if signed ∧ 2 ^ (bits - 1) ≤ m then m - 2 ^ bits else m

/-- Go's `int` arithmetic: a sum or a product that overflows wraps in 64 bits. -/
def wrapInt64 (x : Int) : Int := wrapInt true 64 x

/-- Go's `bs[lo:hi]` within the length; `none` is the panic. -/
def sliceRange (bs : Ethcore.Bytes) (lo hi : Int) : Option Ethcore.Bytes :=
  if 0 ≤ lo ∧ lo ≤ hi ∧ hi ≤ bs.length then some ((bs.drop lo.toNat).take (hi - lo).toNat)
  else none

/-- `common.BytesToAddress`: the last 20 bytes, left-padded with zeros. -/
def BytesToAddress (b : Ethcore.Bytes) : Ethcore.Bytes :=
  Common.LeftPadBytes (if b.length > 20 then b.drop (b.length - 20) else b) 20

/-- `common.BytesToHash`: the last 32 bytes, left-padded with zeros. -/
def BytesToHash (b : Ethcore.Bytes) : Ethcore.Bytes :=
  Common.LeftPadBytes (if b.length > 32 then b.drop (b.length - 32) else b) 32

/-- The conversion at the end of `toGoType`: the Go value of the bytes read for the type. -/
def toGoValue (t : AbiType) (returnOutput : Ethcore.Bytes) : Except AbiError Value :=
  let bigNum := BigEndian.value returnOutput
  match t.T with
  | .IntTy | .UintTy =>
    match t.Kind with
    | .Uint8 => .ok (.uint .Uint8 (bigNum % 2 ^ 64 % 2 ^ 8))
    | .Uint16 => .ok (.uint .Uint16 (bigNum % 2 ^ 64 % 2 ^ 16))
    | .Uint32 => .ok (.uint .Uint32 (bigNum % 2 ^ 64 % 2 ^ 32))
    | .Uint64 => .ok (.uint .Uint64 (bigNum % 2 ^ 64))
    | .Int8 => .ok (.int .Int8 (wrapInt true 8 (toInt (bigNum % 2 ^ 64))))
    | .Int16 => .ok (.int .Int16 (wrapInt true 16 (toInt (bigNum % 2 ^ 64))))
    | .Int32 => .ok (.int .Int32 (wrapInt true 32 (toInt (bigNum % 2 ^ 64))))
    | .Int64 => .ok (.int .Int64 (toInt (bigNum % 2 ^ 64)))
    | .Ptr => .ok (.big bigNum)
    | _ => .error .unknownType
  | .BoolTy => .ok (.bool (decide (bigNum % 2 ^ 64 > 0)))
  | .AddressTy => .ok (.ofByteArray (BytesToAddress returnOutput))
  | .HashTy => .ok (.ofByteArray (BytesToHash returnOutput))
  | .BytesTy | .FixedBytesTy => .ok (.ofBytes returnOutput)
  | .StringTy => .ok (.str returnOutput)
  | _ => .error .unknownType

/-- One element of `toGoSlice`, appended to the slice it built; `none` is the panic of
`reflect.Append` on a `bool` in a `[]*big.Int` or on the `nil` of a byte array. -/
def sliceElem (elem : AbiType) (returnOutput : Ethcore.Bytes) : Option Value :=
  match elem.T with
  | .IntTy | .UintTy => some (.big (BigEndian.value returnOutput))
  | .AddressTy => some (.ofByteArray (BytesToAddress returnOutput))
  | .HashTy => some (.ofByteArray (BytesToHash returnOutput))
  | _ => none

/-- The element kind of the slice `toGoSlice` builds for an element type; `none` for the
types it does not support. -/
def sliceKind (elem : AbiType) : Option Kind :=
  match elem.T with
  | .IntTy | .UintTy | .BoolTy => some .Ptr
  | .AddressTy | .HashTy => some .Array
  | .FixedBytesTy => some .Uint8
  | _ => none

/-- `toGoSlice`: the slice at the offset in slot `i`, its length, then its elements. -/
def toGoSlice (i : Nat) (t : AbiType) (output : Ethcore.Bytes) : Option (Except AbiError Value) :=
  let index := i * 32
  if output.length < index + 32 then some (.error .insufficientSize)
  else
    match t.Elem with
    | none => none
    | some elem =>
      match sliceKind elem with
      | none => some (.error .unsupportedSliceType)
      | some kind =>
        let offset := toInt (bigUint64 ((output.drop index).take 32))
        if (output.length : Int) < wrapInt64 (offset + 32) then some (.error .insufficientSize)
        else do
          let slice ← sliceRange output offset output.length
          let sizeWord ← sliceRange slice 0 32
          let size := toInt (bigUint64 sizeWord)
          let slice ← sliceRange slice 32 slice.length
          if (slice.length : Int) < wrapInt64 (size * 32) then some (.error .insufficientSize)
          else
            let slice ← sliceRange slice 0 (wrapInt64 (size * 32))
            -- the loop runs to `size`, not to the length `slice` was cut to
            let vs ← (List.range size.toNat).mapM fun (j : Nat) =>
              (sliceRange slice (j * 32 : Int) (j * 32 + 32 : Int)).bind (sliceElem elem)
            some (.ok (.slice kind vs))

/-- The bytes of a string or a byte string in `toGoType`: the offset in the slot at `index`,
the length at the offset, then that many bytes. -/
def readVariable (output : Ethcore.Bytes) (index : Nat) : Option (Except AbiError Ethcore.Bytes) :=
  let offset := toInt (bigUint64 ((output.drop index).take 32))
  if (output.length : Int) < wrapInt64 (offset + 32) then some (.error .insufficientSize)
  else do
    let sizeWord ← sliceRange output offset (wrapInt64 (offset + 32))
    let size := toInt (bigUint64 sizeWord)
    let hi := wrapInt64 (wrapInt64 (offset + 32) + size)
    if (output.length : Int) < hi then some (.error .insufficientSize)
    else (sliceRange output (wrapInt64 (offset + 32)) hi).map .ok

/-- `toGoType`: the Go value of output slot `i` for the type, following the offset for a
string or a byte string. -/
def toGoType (i : Nat) (t : AbiType) (output : Ethcore.Bytes) : Option (Except AbiError Value) :=
  if (t.IsSlice || t.IsArray) && t.T != .BytesTy && t.T != .StringTy && t.T != .FixedBytesTy then
    toGoSlice i t output
  else
    let index := i * 32
    if output.length < index + 32 then some (.error .insufficientSize)
    else
      let returnOutput : Option (Except AbiError Ethcore.Bytes) :=
        match t.T with
        | .StringTy | .BytesTy => readVariable output index
        | _ => some (.ok ((output.drop index).take 32))
      match returnOutput with
      | none => none
      | some (.error e) => some (.error e)
      | some (.ok returnOutput) => some (toGoValue t returnOutput)

/-! ### Round trips -/

theorem emod_toNat_lt (n : Int) : (n % 2 ^ 256).toNat < 256 ^ 32 := by
  have hlt := Int.emod_lt_of_pos n (by norm_num : (0 : Int) < 2 ^ 256)
  have h0 := Int.emod_nonneg n (by norm_num : (2 : Int) ^ 256 ≠ 0)
  omega

/-- `abi.U256` is the 32-byte word of the number modulo `2^256`. -/
theorem U256_eq_fixed (n : Int) : U256 n = BigEndian.fixed 32 (n % 2 ^ 256).toNat := by
  rw [U256, Common.U256_eq, Common.LeftPadBytes_minimal (emod_toNat_lt n)]

@[simp] theorem length_U256 (n : Int) : (U256 n).length = 32 := by
  rw [U256_eq_fixed, BigEndian.length_fixed]

/-- Reading the word back with `SetBytes` gives the number modulo `2^256`. -/
theorem value_U256 (n : Int) : (BigEndian.value (U256 n) : Int) = n % 2 ^ 256 := by
  rw [U256_eq_fixed, BigEndian.value_fixed, Nat.mod_eq_of_lt (emod_toNat_lt n)]
  have h0 := Int.emod_nonneg n (by norm_num : (2 : Int) ^ 256 ≠ 0)
  omega

/-- An `int256` argument goes out as its two's complement word and comes back as the unsigned
reading of that word. -/
theorem toGoType_pack_int256 (n : Int) :
    ∃ output, ({ Inputs := [⟨NewType.int 256⟩] } : Method).pack [.big n] = some (.ok output) ∧
      toGoType 0 (NewType.int 256) output = some (.ok (.big (n % 2 ^ 256))) := by
  refine ⟨U256 n, ?_, ?_⟩
  · simp [Method.pack, packArgs, AbiType.pack, typeCheck, NewType.int, reflectIntKind, Value.Kind,
      packElement, packNum, AbiType.requiresLengthPrefix]
  · have hread : ((U256 n).drop (0 * 32)).take 32 = U256 n := by
      rw [Nat.zero_mul, List.drop_zero, List.take_of_length_le (by rw [length_U256])]
    simp only [toGoType, NewType.int, reflectIntKind, toGoValue, length_U256, hread, value_U256]
    rfl

/-- A `bool[]` argument packs, but reading it back appends a `bool` to a `[]*big.Int`, which
panics. -/
theorem toGoType_pack_bools (b : Bool) :
    ∃ output,
      ({ Inputs := [⟨NewType.slice NewType.bool⟩] } : Method).pack [.slice .Bool [.bool b]] =
        some (.ok output) ∧
      toGoType 0 (NewType.slice NewType.bool) output = none := by
  refine ⟨U256 32 ++ (U256 1 ++ Common.LeftPadBytes (if b then [1] else []) 32), ?_, ?_⟩
  · cases b <;> simp [Method.pack, packArgs, AbiType.pack, typeCheck, sliceTypeCheck, NewType.slice,
      NewType.bool, Value.Kind, Value.ElemKind, Value.Len, packElems, packElement, Value.Bool,
      packBytesSlice, packNum, AbiType.requiresLengthPrefix, Except.map, Common.LeftPadBytes,
      Common.RightPadBytes]
  · cases b <;> rfl

end Abi
end Ethcore
