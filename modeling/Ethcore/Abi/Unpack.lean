import Ethcore.Abi.Codec

/-!
# Unpacking a method's outputs: `ABI.Unpack`

`Unpack` reads the outputs of a method into what its argument `v` points to: a struct, field by
field by the outputs' names, a `[]interface{}`, element by element, or, for a method with one
output, any variable, through `set`.  Go's reflection is modelled by what these functions read
of the destination: the Go types `set` compares, whether a pointer is nil, whether a variable
may be set, and the names of a struct's fields.  A panic is `none`.

Several inputs panic that the code's checks were meant to reject (`Unpack_not_total`):
a method that is absent or has no outputs (`method.Outputs[0]`), an output without a name
(`Name[:1]`), and offsets and lengths that are negative as an `int` or whose sums and products
overflow it.  One negative length is read as an empty slice, with no error at all.
-/

namespace Ethcore
namespace Abi

/-- `ABI`, its methods by name (a Go map; the first entry of a name is the one found). -/
structure ABI where
  Methods : List (Bytes × Method)

/-- `abi.Methods[name]`: the method of that name, or the zero `Method` if there is none. -/
def ABI.method (abi : ABI) (name : Bytes) : Method :=
  (abi.Methods.lookup name).getD { Inputs := [] }

/-- A Go type, as far as `set` compares types.  The values `toGoType` returns have types built
from the basic ones, `*big.Int`, arrays and slices, with `common.Address` and `common.Hash`
the arrays of 20 and 32 bytes; every other type, named or not, is `other`, the type of no
result. -/
inductive GoType where
  | basic (k : Kind)
  | bigInt
  | array (n : Nat) (elem : GoType)
  | slice (elem : GoType)
  | other
  deriving DecidableEq, Repr

/-- The Go type of the value `toGoType` returns for an ABI type, `reflect.ValueOf(...).Type()`. -/
def AbiType.goType (t : AbiType) : GoType :=
  if (t.IsSlice || t.IsArray) && t.T != .BytesTy && t.T != .StringTy && t.T != .FixedBytesTy then
    match t.Elem with
    | some elem =>
      match elem.T with
      | .IntTy | .UintTy | .BoolTy => .slice .bigInt
      | .AddressTy => .slice (.array 20 (.basic .Uint8))
      | .HashTy => .slice (.array 32 (.basic .Uint8))
      | _ => .slice (.basic .Uint8)
    | none => .other
  else
    match t.T with
    | .IntTy | .UintTy => if t.Kind = .Ptr then .bigInt else .basic t.Kind
    | .BoolTy => .basic .Bool
    | .AddressTy => .array 20 (.basic .Uint8)
    | .HashTy => .array 32 (.basic .Uint8)
    | .BytesTy | .FixedBytesTy => .slice (.basic .Uint8)
    | .StringTy => .basic .String
    | _ => .other

/-- A variable `set` may assign to, by what `set` reads of it. -/
inductive GoVal where
  /-- a variable of type `t`, which is not a pointer or an interface -/
  | val (t : GoType)
  /-- an `interface{}` variable -/
  | iface
  /-- a pointer variable, a `*big.Int` or of another pointer type, nil or pointing at a
  variable -/
  | ptr (bigInt : Bool) (pointee : Option GoVal)
  deriving Repr

/-- `set`: assign a value of type `src` to `dst`, which `Set` and `reflect.Copy` require to be
settable; `none` is a panic. -/
def set (dst : GoVal) (settable : Bool) (src : GoType) (output : Output) :
    Option (Except AbiError Unit) :=
  match dst with
  | .val t =>
    if t = src then (if settable then some (.ok ()) else none)
    else
      match t, src with
      | .array n elem, .slice selem =>
        if elem ≠ .basic .Uint8 then some (.error .arrayElem)
        else if (n : Int) < output.type.SliceSize then some (.error .arrayLen)
        -- `reflect.Copy` panics on an array it may not set and on unequal element types
        else if settable ∧ selem = .basic .Uint8 then some (.ok ()) else none
      | _, _ => some (.error .cannotUnmarshal)
  | .iface => if settable then some (.ok ()) else none
  | .ptr bigInt pointee =>
    if bigInt ∧ src = .bigInt then (if settable then some (.ok ()) else none)
    else
      match pointee with
      -- `dst.Elem()` of a nil pointer is the zero `Value`, whose `Type()` panics
      | none => none
      | some p => set p true src output

/-- A field of a struct: its name, whether it is exported, and the variable. -/
structure Field where
  Name : Bytes
  exported : Bool
  val : GoVal
  deriving Repr

/-- What `Unpack`'s pointer points to: a struct, a `[]interface{}` with the values its elements
hold (`none` for a nil interface), or any other variable. -/
inductive Target where
  | struct (fields : List Field)
  | ifaceSlice (elems : List (Option GoVal))
  | val (v : GoVal)
  deriving Repr

/-- The target as a variable `set` assigns to; a struct and a `[]interface{}` have no type a
result has. -/
def Target.toGoVal : Target → GoVal
  | .struct _ => .val .other
  | .ifaceSlice _ => .val (.slice .other)
  | .val v => v

/-- Unpack's `v`: not a pointer, or a pointer, nil or to a target. -/
inductive Dest where
  | nonPointer
  | pointer (target : Option Target)
  deriving Repr

/-- `strings.ToUpper` of a one-byte string: an ASCII lower-case letter becomes its capital. -/
def toUpperByte (c : UInt8) : UInt8 := if 97 ≤ c ∧ c ≤ 122 then c - 32 else c

/-- The loop over a struct's fields for one output: every field named like the output is set,
and the output's `Name[:1]` panics if the name is empty. -/
def setFields (o : Output) : List Field → Option (Except AbiError Unit)
  | [] => some (.ok ())
  | f :: fs =>
    match o.Name with
    | [] => none
    | c :: cs =>
      if f.Name = toUpperByte c :: cs then
        match set f.val f.exported o.type.goType o with
        | none => none
        | some (.error e) => some (.error e)
        | some (.ok ()) => setFields o fs
      else setFields o fs

/-- The struct case of `Unpack`: each output from slot `i` on, read, then set into the fields. -/
def unpackStruct (fields : List Field) (output : Bytes) : Nat → List Output →
    Option (Except AbiError Unit)
  | _, [] => some (.ok ())
  | i, o :: os =>
    match toGoType i o.type output with
    | none => none
    | some (.error e) => some (.error e)
    | some (.ok _) =>
      match setFields o fields with
      | none => none
      | some (.error e) => some (.error e)
      | some (.ok ()) => unpackStruct fields output (i + 1) os

/-- The `[]interface{}` case with elements: output `i` is set into the value element `i`
holds, which may not be set itself; a nil element panics. -/
def unpackElems (output : Bytes) : Nat → List (Output × Option GoVal) →
    Option (Except AbiError Unit)
  | _, [] => some (.ok ())
  | i, (o, held) :: rest =>
    match toGoType i o.type output with
    | none => none
    | some (.error e) => some (.error e)
    | some (.ok _) =>
      match held with
      | none => none
      | some v =>
        match set v false o.type.goType o with
        | none => none
        | some (.error e) => some (.error e)
        | some (.ok ()) => unpackElems output (i + 1) rest

/-- The empty `[]interface{}` case: every output is read and appended. -/
def unpackAppend (output : Bytes) : Nat → List Output → Option (Except AbiError Unit)
  | _, [] => some (.ok ())
  | i, o :: os =>
    match toGoType i o.type output with
    | none => none
    | some (.error e) => some (.error e)
    | some (.ok _) => unpackAppend output (i + 1) os

/-- `ABI.Unpack`: the outputs of method `name` read from `output` into what `v` points to;
what it writes is not modelled, only whether it returns `nil`, an error, or panics. -/
def ABI.Unpack (abi : ABI) (v : Dest) (name : Bytes) (output : Bytes) :
    Option (Except AbiError Unit) :=
  let method := abi.method name
  if output = [] then some (.error .emptyOutput)
  else
    match v with
    | .nonPointer => some (.error .nonPointer)
    -- `value.Type()` of the element of a nil pointer
    | .pointer none => none
    | .pointer (some target) =>
      if 1 < method.Outputs.length then
        match target with
        | .struct fields => unpackStruct fields output 0 method.Outputs
        | .ifaceSlice elems =>
          if 0 < elems.length then
            if elems.length < method.Outputs.length then
              some (.error (.unequalSize method.Outputs.length elems.length))
            else unpackElems output 0 (method.Outputs.zip elems)
          else unpackAppend output 0 method.Outputs
        | .val (.val (.slice _)) => some (.error .tupleSlice)
        | .val _ => some (.error .tupleInto)
      else
        match method.Outputs with
        -- `method.Outputs[0]` of a method with no outputs
        | [] => none
        | o :: _ =>
          match toGoType 0 o.type output with
          | none => none
          | some (.error e) => some (.error e)
          | some (.ok _) => set target.toGoVal true o.type.goType o

/-! ### Go integers and slices -/

/-- A Go `int` lies in `[-2^63, 2^63)`. -/
theorem wrapInt64_mem (x : Int) : -2 ^ 63 ≤ wrapInt64 x ∧ wrapInt64 x < 2 ^ 63 := by
  unfold wrapInt64 wrapInt
  simp only [true_and, Nat.add_one_sub_one]
  split <;> omega

/-- A result that fits in an `int` does not wrap. -/
theorem wrapInt64_of_lt {x : Int} (h0 : -2 ^ 63 ≤ x) (h1 : x < 2 ^ 63) : wrapInt64 x = x := by
  unfold wrapInt64 wrapInt
  simp only [true_and, Nat.add_one_sub_one]
  split <;> omega

/-- A result past the largest `int` wraps to a negative one. -/
theorem wrapInt64_of_le {x : Int} (h0 : 2 ^ 63 ≤ x) (h1 : x < 2 ^ 64 + 2 ^ 63) :
    wrapInt64 x = x - 2 ^ 64 := by
  unfold wrapInt64 wrapInt
  simp only [true_and, Nat.add_one_sub_one]
  split <;> omega

theorem wrapInt64_le {x : Int} (h0 : 0 ≤ x) (h1 : x < 2 ^ 64 + 2 ^ 63) : wrapInt64 x ≤ x := by
  by_cases hx : x < 2 ^ 63
  · rw [wrapInt64_of_lt (by omega) hx]
  · rw [wrapInt64_of_le (by omega) h1]
    omega

theorem toInt_of_lt {x : Nat} (h : x < 2 ^ 63) : toInt x = x := if_pos h

theorem toInt_of_le {x : Nat} (h : 2 ^ 63 ≤ x) : toInt x = x - 2 ^ 64 := if_neg (by omega)

theorem bigUint64_lt (bs : Bytes) : bigUint64 bs < 2 ^ 64 := Nat.mod_lt _ (by positivity)

/-- The offset or length word at a byte position: `new(big.Int).SetBytes(output[offset :
offset+32]).Uint64()`. -/
def wordAt (output : Bytes) (offset : Nat) : Nat := bigUint64 ((output.drop offset).take 32)

theorem bigUint64_take_drop (output : Bytes) (offset : Nat) :
    bigUint64 ((output.drop offset).take 32) = wordAt output offset := rfl

theorem wordAt_lt (output : Bytes) (offset : Nat) : wordAt output offset < 2 ^ 64 :=
  bigUint64_lt _

/-- Go's `bs[lo:hi]` within the bounds, and out of them, where it panics. -/
theorem sliceRange_eq_some {bs : Bytes} {lo hi : Int} (h0 : 0 ≤ lo) (h1 : lo ≤ hi)
    (h2 : hi ≤ bs.length) : sliceRange bs lo hi = some ((bs.drop lo.toNat).take (hi - lo).toNat) :=
  if_pos ⟨h0, h1, h2⟩

theorem sliceRange_eq_none {bs : Bytes} {lo hi : Int} (h : lo < 0 ∨ hi < lo ∨ bs.length < hi) :
    sliceRange bs lo hi = none :=
  if_neg (by omega)

theorem sliceRange_word {bs : Bytes} {lo : Nat} (h : lo + 32 ≤ bs.length) :
    sliceRange bs lo ((lo : Int) + 32) = some ((bs.drop lo).take 32) := by
  rw [sliceRange_eq_some (by omega) (by omega) (by omega)]
  simp

theorem sliceRange_from {bs : Bytes} {lo : Nat} (h : lo ≤ bs.length) :
    sliceRange bs lo bs.length = some (bs.drop lo) := by
  rw [sliceRange_eq_some (by omega) (by omega) le_rfl]
  simp

theorem sliceRange_first_word {bs : Bytes} (h : 32 ≤ bs.length) :
    sliceRange bs 0 32 = some (bs.take 32) := by
  rw [sliceRange_eq_some le_rfl (by omega) (by omega)]
  simp

theorem sliceRange_after_word {bs : Bytes} (h : 32 ≤ bs.length) :
    sliceRange bs 32 bs.length = some (bs.drop 32) := by
  rw [sliceRange_eq_some (by omega) (by omega) le_rfl]
  simp only [Int.reduceToNat, Option.some.injEq]
  exact List.take_of_length_le (by simp; omega)

/-- A loop in `Option` fails if one of its steps does. -/
theorem mapM_eq_none_of_mem {α β : Type} {f : α → Option β} {l : List α} {a : α} (ha : a ∈ l)
    (hf : f a = none) : l.mapM f = none := by
  induction l with
  | nil => cases ha
  | cons x l ih =>
    rw [List.mapM_cons]
    rcases List.mem_cons.mp ha with rfl | ha
    · rw [hf]
      rfl
    · cases f x with
      | none => rfl
      | some b => rw [ih ha]; rfl

/-! ### Strings and byte strings -/

/-- An offset word whose end lies past `2^63` is negative as an `int`, or wraps when 32 is
added: the slice of the length word panics. -/
theorem readVariable_of_le {output : Bytes} {index : Nat} (h : 32 ≤ output.length)
    (hw : 2 ^ 63 ≤ wordAt output index + 32) : readVariable output index = none := by
  have hlt := wordAt_lt output index
  -- the offset and its end as `int`s: the end is below 32, and below the offset or negative
  obtain ⟨hend, hbad⟩ : wrapInt64 (toInt (wordAt output index) + 32) < 32 ∧
      (toInt (wordAt output index) < 0 ∨
        wrapInt64 (toInt (wordAt output index) + 32) < toInt (wordAt output index)) := by
    by_cases hneg : 2 ^ 63 ≤ wordAt output index
    · rw [toInt_of_le hneg, wrapInt64_of_lt (by omega) (by omega)]
      omega
    · rw [toInt_of_lt (by omega), wrapInt64_of_le (by omega) (by omega)]
      omega
  unfold readVariable
  dsimp only
  rw [bigUint64_take_drop, if_neg (by omega), sliceRange_eq_none (by omega)]
  rfl

/-- An offset whose end lies past the output is rejected. -/
theorem readVariable_of_short {output : Bytes} {index : Nat}
    (hw : wordAt output index + 32 < 2 ^ 63) (hlen : output.length < wordAt output index + 32) :
    readVariable output index = some (.error .insufficientSize) := by
  unfold readVariable
  dsimp only
  rw [bigUint64_take_drop, toInt_of_lt (by omega), wrapInt64_of_lt (by omega) (by omega),
    if_pos (by omega)]

/-- Past a good offset, the reading goes on from the length word at the offset. -/
theorem readVariable_of_le_length {output : Bytes} {index : Nat}
    (hw : wordAt output index + 32 < 2 ^ 63) (hlen : wordAt output index + 32 ≤ output.length) :
    readVariable output index =
      let size := toInt (wordAt output (wordAt output index))
      let hi := wrapInt64 ((wordAt output index : Int) + 32 + size)
      if (output.length : Int) < hi then some (.error .insufficientSize)
      else (sliceRange output ((wordAt output index : Int) + 32) hi).map .ok := by
  unfold readVariable
  dsimp only
  rw [bigUint64_take_drop, toInt_of_lt (by omega), wrapInt64_of_lt (by omega) (by omega),
    if_neg (by omega), sliceRange_word hlen]
  rfl

/-- A length word that makes the end of the bytes pass `2^63`, or that is negative, panics. -/
theorem readVariable_of_overflow {output : Bytes} {index : Nat}
    (hw : wordAt output index + 32 < 2 ^ 63) (hlen : wordAt output index + 32 ≤ output.length)
    (hs : 2 ^ 63 ≤ wordAt output index + 32 + wordAt output (wordAt output index)) :
    readVariable output index = none := by
  have hlt := wordAt_lt output (wordAt output index)
  -- the end wraps to a negative `int`, or lies before the start
  have hhi : wrapInt64 ((wordAt output index : Int) + 32 +
      toInt (wordAt output (wordAt output index))) < (wordAt output index : Int) + 32 := by
    by_cases hneg : 2 ^ 63 ≤ wordAt output (wordAt output index)
    · rw [toInt_of_le hneg, wrapInt64_of_lt (by omega) (by omega)]
      omega
    · rw [toInt_of_lt (by omega), wrapInt64_of_le (by omega) (by omega)]
      omega
  rw [readVariable_of_le_length hw hlen]
  dsimp only
  rw [if_neg (by omega), sliceRange_eq_none (by omega)]
  rfl

/-- A string or byte string whose end lies below `2^63` is read, or rejected if it passes the
output's end. -/
theorem readVariable_of_fits {output : Bytes} {index : Nat}
    (hlen : wordAt output index + 32 ≤ output.length)
    (hs : wordAt output index + 32 + wordAt output (wordAt output index) < 2 ^ 63) :
    readVariable output index =
      if output.length < wordAt output index + 32 + wordAt output (wordAt output index) then
        some (.error .insufficientSize)
      else some (.ok ((output.drop (wordAt output index + 32)).take
        (wordAt output (wordAt output index)))) := by
  rw [readVariable_of_le_length (by omega) hlen]
  dsimp only
  rw [toInt_of_lt (by omega), wrapInt64_of_lt (by omega) (by omega)]
  by_cases hfit : output.length < wordAt output index + 32 + wordAt output (wordAt output index)
  · rw [if_pos (by omega), if_pos hfit]
  · have hlo : ((wordAt output index : Int) + 32).toNat = wordAt output index + 32 := by omega
    rw [if_neg (by omega), if_neg hfit, sliceRange_eq_some (by omega) (by omega) (by omega), hlo]
    simp

/-- `readVariable` panics exactly when the end of the offset word or of the bytes lies past
`2^63`. -/
theorem readVariable_eq_none_iff {output : Bytes} {index : Nat} (h : 32 ≤ output.length) :
    readVariable output index = none ↔
      2 ^ 63 ≤ wordAt output index + 32 ∨
        (wordAt output index + 32 ≤ output.length ∧
          2 ^ 63 ≤ wordAt output index + 32 + wordAt output (wordAt output index)) := by
  by_cases hw : 2 ^ 63 ≤ wordAt output index + 32
  · simp only [readVariable_of_le h hw, hw, true_or]
  by_cases hlen : output.length < wordAt output index + 32
  · rw [readVariable_of_short (by omega) hlen]
    simp only [reduceCtorEq, false_iff]
    omega
  by_cases hs : 2 ^ 63 ≤ wordAt output index + 32 + wordAt output (wordAt output index)
  · rw [readVariable_of_overflow (by omega) (by omega) hs]
    simp only [true_iff]
    omega
  · rw [readVariable_of_fits (by omega) (by omega)]
    split <;> simp only [reduceCtorEq, false_iff] <;> omega

/-- `toGoType` of a string or a byte string: the slot check, then `readVariable`. -/
theorem toGoType_variable {i : Nat} {t : AbiType} {output : Bytes}
    (hT : t.T = .StringTy ∨ t.T = .BytesTy) :
    toGoType i t output =
      if output.length < i * 32 + 32 then some (.error .insufficientSize)
      else
        match readVariable output (i * 32) with
        | none => none
        | some (.error e) => some (.error e)
        | some (.ok r) => some (toGoValue t r) := by
  unfold toGoType
  rcases hT with hT | hT <;>
    simp only [hT, bne_self_eq_false, Bool.and_false, Bool.false_and, Bool.false_eq_true,
      if_false] <;> rfl

/-- `toGoType` of a string or a byte string panics exactly when its slot is in the output and
the end of the offset word or of the bytes lies past `2^63`. -/
theorem toGoType_variable_eq_none_iff {i : Nat} {t : AbiType} {output : Bytes}
    (hT : t.T = .StringTy ∨ t.T = .BytesTy) :
    toGoType i t output = none ↔ i * 32 + 32 ≤ output.length ∧
      (2 ^ 63 ≤ wordAt output (i * 32) + 32 ∨
        (wordAt output (i * 32) + 32 ≤ output.length ∧
          2 ^ 63 ≤ wordAt output (i * 32) + 32 + wordAt output (wordAt output (i * 32)))) := by
  rw [toGoType_variable hT]
  by_cases hslot : output.length < i * 32 + 32
  · simp only [if_pos hslot, reduceCtorEq, false_iff]
    omega
  · rw [if_neg hslot, ← readVariable_eq_none_iff (by omega)]
    -- the match passes a panic on and turns the rest into results
    cases readVariable output (i * 32) with
    | none => simpa using (by omega : i * 32 + 32 ≤ output.length)
    | some r => cases r <;> simp

/-! ### Slices -/

theorem toGoType_newSlice (i : Nat) (elem : AbiType) (output : Bytes) :
    toGoType i (NewType.slice elem) output = toGoSlice i (NewType.slice elem) output := rfl

theorem goType_newSlice {elem : AbiType} (hk : sliceKind elem = some .Ptr) :
    (NewType.slice elem).goType = .slice .bigInt := by
  unfold sliceKind at hk
  unfold AbiType.goType
  split at hk <;> simp_all [NewType.slice]

/-- `toGoSlice` past an offset in the output: the length word at the offset, then the bytes
after it. -/
theorem toGoSlice_of_offset {i : Nat} {t elem : AbiType} {kind : Kind} {output : Bytes}
    (he : t.Elem = some elem) (hk : sliceKind elem = some kind)
    (hslot : i * 32 + 32 ≤ output.length) (hw : wordAt output (i * 32) < 2 ^ 63)
    (hlen : wordAt output (i * 32) + 32 ≤ output.length) :
    toGoSlice i t output =
      let size := toInt (wordAt output (wordAt output (i * 32)))
      let rest := output.drop (wordAt output (i * 32) + 32)
      if (rest.length : Int) < wrapInt64 (size * 32) then some (.error .insufficientSize)
      else
        (sliceRange rest 0 (wrapInt64 (size * 32))).bind fun slice =>
          ((List.range size.toNat).mapM fun (j : Nat) =>
            (sliceRange slice (j * 32 : Int) (j * 32 + 32 : Int)).bind (sliceElem elem)).bind
              fun vs => some (.ok (.slice kind vs)) := by
  -- the end of the offset word passes the check even where it wraps
  have hend := wrapInt64_le (x := (wordAt output (i * 32) : Int) + 32) (by omega) (by omega)
  have hdrop : 32 ≤ (output.drop (wordAt output (i * 32))).length := by
    rw [List.length_drop]
    omega
  unfold toGoSlice
  dsimp only
  rw [if_neg (by omega), he]
  dsimp only
  rw [hk]
  dsimp only
  rw [bigUint64_take_drop, toInt_of_lt hw, if_neg (by omega), sliceRange_from (by omega)]
  dsimp only [Option.bind_eq_bind, Option.bind_some]
  rw [sliceRange_first_word hdrop, sliceRange_after_word hdrop]
  dsimp only [Option.bind_some]
  rw [List.drop_drop, bigUint64_take_drop]

/-- A length below `2^63` whose product by 32 overflows to a length that passes the check:
the loop reads past the end of the cut slice and panics. -/
theorem toGoSlice_of_overflow {i : Nat} {t elem : AbiType} {kind : Kind} {output : Bytes}
    (he : t.Elem = some elem) (hk : sliceKind elem = some kind)
    (hslot : i * 32 + 32 ≤ output.length) (hw : wordAt output (i * 32) < 2 ^ 63)
    (hlen : wordAt output (i * 32) + 32 ≤ output.length)
    (hs : wordAt output (wordAt output (i * 32)) < 2 ^ 63)
    (hover : 2 ^ 63 ≤ wordAt output (wordAt output (i * 32)) * 32)
    (hfit : wrapInt64 (wordAt output (wordAt output (i * 32)) * 32) ≤
      (output.length - (wordAt output (i * 32) + 32) : Nat)) :
    toGoSlice i t output = none := by
  rw [toGoSlice_of_offset he hk hslot hw hlen]
  dsimp only
  rw [toInt_of_lt hs, List.length_drop, if_neg (by omega)]
  set s := wordAt output (wordAt output (i * 32))
  set rest := output.drop (wordAt output (i * 32) + 32)
  have hrest : rest.length = output.length - (wordAt output (i * 32) + 32) := List.length_drop
  by_cases hneg : wrapInt64 ((s : Int) * 32) < 0
  · -- the cut to a negative length panics
    rw [sliceRange_eq_none (by omega)]
    rfl
  · -- the cut keeps `W` bytes, and step `W / 32` of the loop reads past them
    set W := wrapInt64 ((s : Int) * 32) with hW
    have hWlt : W < 2 ^ 63 := by
      exact (wrapInt64_mem _).2
    rw [sliceRange_eq_some le_rfl (by omega) (by omega), Option.bind_some]
    have hstep : (fun (j : Nat) => (sliceRange (rest.take (W - 0).toNat) (j * 32 : Int)
        (j * 32 + 32 : Int)).bind (sliceElem elem)) (W.toNat / 32) = none := by
      dsimp only
      rw [sliceRange_eq_none (by right; right; simp; omega)]
      rfl
    rw [mapM_eq_none_of_mem (List.mem_range.mpr (by simp; omega)) hstep]
    rfl

/-- A negative length whose product by 32 wraps to a length that passes the check: the loop
runs no step, and the slice is read as empty, with no error. -/
theorem toGoSlice_of_negative_size {i : Nat} {t elem : AbiType} {kind : Kind} {output : Bytes}
    (he : t.Elem = some elem) (hk : sliceKind elem = some kind)
    (hslot : i * 32 + 32 ≤ output.length) (hw : wordAt output (i * 32) < 2 ^ 63)
    (hlen : wordAt output (i * 32) + 32 ≤ output.length)
    (hs : 2 ^ 63 ≤ wordAt output (wordAt output (i * 32)))
    (h0 : 0 ≤ wrapInt64 (toInt (wordAt output (wordAt output (i * 32))) * 32))
    (hfit : wrapInt64 (toInt (wordAt output (wordAt output (i * 32))) * 32) ≤
      (output.length - (wordAt output (i * 32) + 32) : Nat)) :
    toGoSlice i t output = some (.ok (.slice kind [])) := by
  have hlt := wordAt_lt output (wordAt output (i * 32))
  -- the loop's bound, the length as an `int`, is negative
  have hnone : (toInt (wordAt output (wordAt output (i * 32)))).toNat = 0 := by
    rw [toInt_of_le hs]
    omega
  rw [toGoSlice_of_offset he hk hslot hw hlen]
  dsimp only
  rw [List.length_drop, if_neg (by omega), sliceRange_eq_some le_rfl h0 (by simp; omega),
    Option.bind_some, hnone]
  rfl

/-! ### The paths of `Unpack` -/

/-- A nil pointer panics on `value.Type()`. -/
theorem Unpack_nil_pointer (abi : ABI) (name : Bytes) {output : Bytes} (h : output ≠ []) :
    abi.Unpack (.pointer none) name output = none := by
  unfold ABI.Unpack
  rw [if_neg h]

/-- A method with no outputs, and so a name the ABI lacks, panics on `method.Outputs[0]`. -/
theorem Unpack_no_outputs {abi : ABI} {name output : Bytes} (target : Target)
    (hout : (abi.method name).Outputs = []) (h : output ≠ []) :
    abi.Unpack (.pointer (some target)) name output = none := by
  unfold ABI.Unpack
  simp only [if_neg h, hout, List.length_nil]
  rfl

/-- A method with one output: read it, then `set` it into the target. -/
theorem Unpack_single {abi : ABI} {name output : Bytes} {o : Output} (target : Target)
    (hout : (abi.method name).Outputs = [o]) (h : output ≠ []) :
    abi.Unpack (.pointer (some target)) name output =
      match toGoType 0 o.type output with
      | none => none
      | some (.error e) => some (.error e)
      | some (.ok _) => set target.toGoVal true o.type.goType o := by
  unfold ABI.Unpack
  simp only [if_neg h, hout, List.length_singleton, Nat.lt_irrefl, if_false]

/-- A method with several outputs and a struct target: the struct loop. -/
theorem Unpack_struct {abi : ABI} {name output : Bytes} (fields : List Field)
    (hout : 1 < (abi.method name).Outputs.length) (h : output ≠ []) :
    abi.Unpack (.pointer (some (.struct fields))) name output =
      unpackStruct fields output 0 (abi.method name).Outputs := by
  unfold ABI.Unpack
  simp only [if_neg h, if_pos hout]

/-- An output without a name panics on `Name[:1]` at the first field of the struct, once it is
read. -/
theorem unpackStruct_empty_name {fields : List Field} {output : Bytes} {i : Nat} {o : Output}
    (os : List Output) {v : Value} (hf : fields ≠ []) (hname : o.Name = [])
    (hv : toGoType i o.type output = some (.ok v)) :
    unpackStruct fields output i (o :: os) = none := by
  obtain ⟨f, fs, rfl⟩ := List.exists_cons_of_ne_nil hf
  rw [unpackStruct, hv]
  simp only [setFields, hname]

theorem Unpack_not_total :
    (∀ (abi : ABI) (name output : Bytes), output ≠ [] →
      abi.Unpack (.pointer none) name output = none) ∧
    (∀ (abi : ABI) (name output : Bytes) (target : Target),
      (abi.method name).Outputs = [] → output ≠ [] →
        abi.Unpack (.pointer (some target)) name output = none) ∧
    (∀ (abi : ABI) (name output : Bytes) (target : Target) (o : Output),
      (abi.method name).Outputs = [o] → (o.type.T = .StringTy ∨ o.type.T = .BytesTy) →
      32 ≤ output.length →
      (2 ^ 63 ≤ wordAt output 0 + 32 ∨
        (wordAt output 0 + 32 ≤ output.length ∧
          2 ^ 63 ≤ wordAt output 0 + 32 + wordAt output (wordAt output 0))) →
        abi.Unpack (.pointer (some target)) name output = none) ∧
    (∀ (abi : ABI) (name output : Bytes) (target : Target) (o : Output) (elem : AbiType)
      (kind : Kind),
      (abi.method name).Outputs = [o] → o.type = NewType.slice elem →
      sliceKind elem = some kind →
      wordAt output 0 < 2 ^ 63 → wordAt output 0 + 32 ≤ output.length →
      wordAt output (wordAt output 0) < 2 ^ 63 →
      2 ^ 63 ≤ wordAt output (wordAt output 0) * 32 →
      wrapInt64 (wordAt output (wordAt output 0) * 32) ≤
        (output.length - (wordAt output 0 + 32) : Nat) →
        abi.Unpack (.pointer (some target)) name output = none) ∧
    (∀ (abi : ABI) (name output : Bytes) (o : Output) (elem : AbiType),
      (abi.method name).Outputs = [o] → o.type = NewType.slice elem →
      sliceKind elem = some .Ptr →
      wordAt output 0 < 2 ^ 63 → wordAt output 0 + 32 ≤ output.length →
      2 ^ 63 ≤ wordAt output (wordAt output 0) →
      0 ≤ wrapInt64 (toInt (wordAt output (wordAt output 0)) * 32) →
      wrapInt64 (toInt (wordAt output (wordAt output 0)) * 32) ≤
        (output.length - (wordAt output 0 + 32) : Nat) →
        abi.Unpack (.pointer (some (.val (.val (.slice .bigInt))))) name output =
          some (.ok ())) ∧
    (∀ (abi : ABI) (name output : Bytes) (fields : List Field) (o : Output) (os : List Output)
      (v : Value),
      (abi.method name).Outputs = o :: os → os ≠ [] → fields ≠ [] → o.Name = [] →
      toGoType 0 o.type output = some (.ok v) →
        abi.Unpack (.pointer (some (.struct fields))) name output = none) := by
  refine ⟨fun abi name output h => Unpack_nil_pointer abi name h,
    fun abi name output target hout h => Unpack_no_outputs target hout h, ?_, ?_, ?_, ?_⟩
  · -- an offset word or a length word that `int` turns negative or overflows
    intro abi name output target o hout hT hlen hbad
    rw [Unpack_single target hout (List.ne_nil_of_length_pos (by omega)),
      (toGoType_variable_eq_none_iff hT).mpr ⟨hlen, hbad⟩]
  · -- a length word whose product by 32 overflows
    intro abi name output target o elem kind hout ht hk hw hlen hs hover hfit
    rw [Unpack_single target hout (List.ne_nil_of_length_pos (by omega)), ht, toGoType_newSlice,
      toGoSlice_of_overflow (i := 0) rfl hk (by omega) hw hlen hs hover hfit]
  · -- a negative length word read as no elements
    intro abi name output o elem hout ht hk hw hlen hs h0 hfit
    rw [Unpack_single _ hout (List.ne_nil_of_length_pos (by omega)), ht, toGoType_newSlice,
      toGoSlice_of_negative_size (i := 0) rfl hk (by omega) hw hlen hs h0 hfit]
    dsimp only
    rw [goType_newSlice hk]
    rfl
  · -- an output without a name, into a struct with a field
    intro abi name output fields o os v hout hos hf hname hv
    have hlen : 1 < (abi.method name).Outputs.length := by
      rw [hout, List.length_cons]
      exact Nat.lt_add_of_pos_left (List.length_pos_iff.mpr hos)
    have hne : output ≠ [] := by
      rintro rfl
      simp [toGoType, toGoSlice] at hv
    rw [Unpack_struct fields hlen hne, hout]
    exact unpackStruct_empty_name os hf hname hv

/-- A method with one `uint256[]` output, `f`. -/
def sliceABI : ABI :=
  ⟨[([102], { Inputs := [], Outputs := [⟨⟨NewType.slice (NewType.uint 256)⟩, [120]⟩] })]⟩

/-- The output of offset 32 and length word `2^63`. -/
def negativeSizeOutput : Bytes := BigEndian.fixed 32 32 ++ BigEndian.fixed 32 (2 ^ 63)

theorem Unpack_not_total_at_inputs :
    ABI.Unpack ⟨[]⟩ (.pointer (some (.val (.val (.basic .Bool))))) [102] [0] = none ∧
      sliceABI.Unpack (.pointer (some (.val (.val (.slice .bigInt))))) [102]
        negativeSizeOutput = some (.ok ()) :=
  ⟨Unpack_not_total.2.1 ⟨[]⟩ [102] [0] _ rfl (by decide),
    Unpack_not_total.2.2.2.2.1 sliceABI [102] negativeSizeOutput _ (NewType.uint 256) rfl rfl rfl
      (by decide) (by decide) (by decide) (by decide) (by decide)⟩

end Abi
end Ethcore
