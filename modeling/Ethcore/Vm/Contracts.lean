import Ethcore.Common.Bytes

/-!
# Precompiled contracts: `contracts.go`, `EVM.RunPrecompiled`

The four precompiled accounts of the Yellow Paper, each a gas function of the input length
and a function of the input.  `RunPrecompiled` charges the gas on the calling contract with
`UseGas` and runs the function only if the gas is there.

The hash and signature primitives of `crypto` are parameters, in `Crypto`, together with the
lengths of what they return: the slices `pubKey[1:]` and `Keccak256(..)[12:]` of
`ecrecoverFunc` are then within bounds and are `List.drop`.

`ecrecoverFunc` reads its `v` operand as a 256-bit word but keeps only the low byte of it
(`byte(vbig.Uint64())`) before the check against 27 and 28, so every word congruent to 27 or
28 modulo 256 recovers as 27 or 28 does (`ecrecoverFunc_split`).
-/

namespace Ethcore
namespace Vm

open Common

/-- The primitives of `crypto` the precompiled contracts call: a Keccak-256 digest has 32
bytes, and a recovered public key 65, its first byte the tag of an uncompressed point. -/
structure Crypto where
  Keccak256 : Bytes → Bytes
  Sha256 : Bytes → Bytes
  Ripemd160 : Bytes → Bytes
  /-- `crypto.Ecrecover(hash, sig)`, with `sig = r ‖ s ‖ recovery id`. -/
  Ecrecover : Bytes → Bytes → Except String Bytes
  length_Keccak256 : ∀ data, (Keccak256 data).length = 32
  length_Ecrecover : ∀ hash sig pubKey, Ecrecover hash sig = .ok pubKey → pubKey.length = 65

/-- `secp256k1.N`: the order of the curve's group. -/
def secp256k1.N : Int := 0xfffffffffffffffffffffffffffffffebaaedce6af48a03bbfd25e8cd0364141

/-- `secp256k1.HalfN`: `N / 2`. -/
def secp256k1.HalfN : Int := 0x7fffffffffffffffffffffffffffffff5d576e7357a4501ddfe92f46681b20a0

/-- `crypto.ValidateSignatureValues`: `r` and `s` in `(0, N)` (`s` at most `N / 2` from
Homestead on) and `v` one of 27 and 28. -/
def ValidateSignatureValues (v : UInt8) (r s : Int) (homestead : Bool) : Bool :=
  if r.sign ≤ 0 ∨ s.sign ≤ 0 then false
  else
    let vint := v.toNat
    if homestead ∧ s > secp256k1.HalfN then false
    else if s ≥ secp256k1.N then false
    else decide (r < secp256k1.N ∧ (vint = 27 ∨ vint = 28))

/-- `ecrecoverFunc`: the input read as four words `hash, v, r, s` after padding it to 128
bytes; an empty output when the signature values are invalid or recovery fails, and
otherwise the last 20 bytes of the Keccak-256 of the key, padded to a word. -/
def ecrecoverFunc (c : Crypto) (input : Bytes) : Bytes :=
  let input := RightPadBytes input 128
  let r : Int := BigEndian.value ((input.drop 64).take 32)
  let s : Int := BigEndian.value ((input.drop 96).take 32)
  -- the `v` word is read whole, then cut to its low byte
  let vbig : Int := BigEndian.value ((input.drop 32).take 32)
  let v := UInt8.ofNat (Uint64 vbig)
  if !ValidateSignatureValues v r s false then []
  else
    let vbignormal := vbig - 27
    let vnormal := UInt8.ofNat (Uint64 vbignormal)
    let rsv := (input.drop 64).take 64 ++ [vnormal]
    match c.Ecrecover (input.take 32) rsv with
    | .error _ => []
    | .ok pubKey => LeftPadBytes ((c.Keccak256 (pubKey.drop 1)).drop 12) 32

def sha256Func (c : Crypto) (input : Bytes) : Bytes := c.Sha256 input

def ripemd160Func (c : Crypto) (input : Bytes) : Bytes := LeftPadBytes (c.Ripemd160 input) 32

def memCpy (input : Bytes) : Bytes := input

/-- `PrecompiledAccount`: the gas of a call as a function of the input length, and the
output as a function of the input. -/
structure PrecompiledAccount where
  Gas : Nat → Int
  fn : Bytes → Bytes

def PrecompiledAccount.Call (self : PrecompiledAccount) (input : Bytes) : Bytes := self.fn input

/-- The gas of the hashing and copying contracts: `base`, and `perWord` for every 32-byte
word of input, a last partial word included. -/
def wordGas (base perWord : Int) (l : Nat) : Int := ((l + 31) / 32 : Nat) * perWord + base

/-- `PrecompiledContracts`: the accounts at the addresses 1 to 4. -/
def PrecompiledContracts (c : Crypto) (addr : Bytes) : Option PrecompiledAccount :=
  if addr = LeftPadBytes [1] 20 then some ⟨fun _ => 3000, ecrecoverFunc c⟩
  else if addr = LeftPadBytes [2] 20 then some ⟨wordGas 60 12, sha256Func c⟩
  else if addr = LeftPadBytes [3] 20 then some ⟨wordGas 600 120, ripemd160Func c⟩
  else if addr = LeftPadBytes [4] 20 then some ⟨wordGas 15 3, memCpy⟩
  else none

/-- The gas fields of a `Contract`, the only ones `RunPrecompiled` reads or writes. -/
structure Contract where
  Gas : Int
  UsedGas : Int

/-- `useGas`: subtract `amount` from `gas` unless that would make it negative. -/
def useGas (gas amount : Int) : Bool × Int :=
  if gas < amount then (false, gas) else (true, gas - amount)

def Contract.UseGas (c : Contract) (gas : Int) : Bool × Contract :=
  let (ok, g) := useGas c.Gas gas
  if ok then (true, { Gas := g, UsedGas := c.UsedGas + gas }) else (false, { c with Gas := g })

/-- The errors of the interpreter `RunPrecompiled` returns. -/
inductive VmError where
  /-- `OutOfGasError`, "Out of gas". -/
  | OutOfGasError
  deriving DecidableEq, Repr

/-- `EVM.RunPrecompiled`: charge the gas, then run the contract; no output when the gas
is short. -/
def RunPrecompiled (p : PrecompiledAccount) (input : Bytes) (contract : Contract) :
    Except VmError Bytes × Contract :=
  let gas := p.Gas input.length
  match contract.UseGas gas with
  | (true, contract) => (.ok (p.Call input), contract)
  | (false, contract) => (.error .OutOfGasError, contract)

/-! ### Charging the gas -/

theorem useGas_of_le {gas amount : Int} (h : amount ≤ gas) :
    useGas gas amount = (true, gas - amount) := by
  rw [useGas, if_neg (Int.not_lt.mpr h)]

theorem useGas_of_lt {gas amount : Int} (h : gas < amount) : useGas gas amount = (false, gas) := by
  rw [useGas, if_pos h]

variable {p : PrecompiledAccount} {input : Bytes} {contract : Contract}

/-- With the gas there, `RunPrecompiled` returns the contract's output and charges exactly
its gas. -/
theorem RunPrecompiled_of_le (h : p.Gas input.length ≤ contract.Gas) :
    RunPrecompiled p input contract =
      (.ok (p.fn input),
        { Gas := contract.Gas - p.Gas input.length
          UsedGas := contract.UsedGas + p.Gas input.length }) := by
  simp only [RunPrecompiled, Contract.UseGas, useGas_of_le h, if_true]
  rfl

/-- Without, it fails with `OutOfGasError` and leaves the contract as it was. -/
theorem RunPrecompiled_of_lt (h : contract.Gas < p.Gas input.length) :
    RunPrecompiled p input contract = (.error .OutOfGasError, contract) := by
  simp only [RunPrecompiled, Contract.UseGas, useGas_of_lt h]
  rfl

/-! ### The signature check of `ecrecoverFunc` -/

/-- Before Homestead the check is that `r` and `s` lie in `(0, N)` and `v` is 27 or 28. -/
theorem ValidateSignatureValues_false (v : UInt8) (r s : Int) :
    ValidateSignatureValues v r s false =
      decide (0 < r ∧ 0 < s ∧ s < secp256k1.N ∧ r < secp256k1.N ∧ (v.toNat = 27 ∨ v.toNat = 28)) := by
  unfold ValidateSignatureValues
  by_cases hrs : r.sign ≤ 0 ∨ s.sign ≤ 0
  · rw [if_pos hrs]
    have : r ≤ 0 ∨ s ≤ 0 := by simpa [Int.sign_nonpos_iff] using hrs
    grind
  · rw [if_neg hrs]
    have : 0 < r ∧ 0 < s := by simpa [Int.sign_nonpos_iff] using hrs
    by_cases hs : s < secp256k1.N
    · simp [hs, this]
    · simp [hs, this, not_lt.mp hs]

/-- The byte checked against 27 and 28 is the low byte of the `v` word. -/
theorem toNat_ofNat_Uint64 (n : Nat) : (UInt8.ofNat (Uint64 n)).toNat = n % 256 := by
  simp [Uint64, Nat.mod_mod_of_dvd]

/-- The recovery id passed on is the low byte of the `v` word less 27. -/
theorem ofNat_Uint64_sub {n : Nat} (h : 27 ≤ n % 256) :
    UInt8.ofNat (Uint64 ((n : Int) - 27)) = UInt8.ofNat (n % 256 - 27) := by
  have hn : ((n : Int) - 27).natAbs = n - 27 := by omega
  apply UInt8.toNat_inj.mp
  rw [Uint64, hn, UInt8.toNat_ofNat', UInt8.toNat_ofNat', Nat.mod_mod_of_dvd _ (by norm_num)]
  omega

/-- `ecrecoverFunc` on an input of at least four words `hash, v, r, s`: it recovers when
`r` and `s` lie in `(0, N)` and the low byte of `v` is 27 or 28, and passes that byte less
27 as the recovery id; the other 31 bytes of `v` are never looked at. -/
theorem ecrecoverFunc_split (c : Crypto) {h vb r s : Bytes} (hh : h.length = 32)
    (hv : vb.length = 32) (hr : r.length = 32) (hs : s.length = 32) (rest : Bytes) :
    ecrecoverFunc c (h ++ vb ++ r ++ s ++ rest) =
      if (BigEndian.value vb % 256 = 27 ∨ BigEndian.value vb % 256 = 28) ∧
          0 < BigEndian.value r ∧ (BigEndian.value r : Int) < secp256k1.N ∧
          0 < BigEndian.value s ∧ (BigEndian.value s : Int) < secp256k1.N then
        match c.Ecrecover h (r ++ s ++ [UInt8.ofNat (BigEndian.value vb % 256 - 27)]) with
        | .error _ => []
        | .ok pubKey => LeftPadBytes ((c.Keccak256 (pubKey.drop 1)).drop 12) 32
      else [] := by
  have hlen : 128 ≤ (h ++ vb ++ r ++ s ++ rest).length := by simp [hh, hv, hr, hs]; omega
  -- the words the function slices out of the padded input
  obtain ⟨hr', hs', hv', hrs, hh'⟩ :
      ((h ++ vb ++ r ++ s ++ rest).drop 64).take 32 = r ∧
      ((h ++ vb ++ r ++ s ++ rest).drop 96).take 32 = s ∧
      ((h ++ vb ++ r ++ s ++ rest).drop 32).take 32 = vb ∧
      ((h ++ vb ++ r ++ s ++ rest).drop 64).take 64 = r ++ s ∧
      (h ++ vb ++ r ++ s ++ rest).take 32 = h := by
    simp [List.drop_append, List.take_append, hh, hv, hr, hs, List.drop_eq_nil_of_le,
      List.take_of_length_le]
  simp only [ecrecoverFunc, RightPadBytes_of_le hlen, hr', hs', hv', hrs, hh',
    ValidateSignatureValues_false, toNat_ofNat_Uint64]
  by_cases hvalid : (BigEndian.value vb % 256 = 27 ∨ BigEndian.value vb % 256 = 28) ∧
      0 < BigEndian.value r ∧ (BigEndian.value r : Int) < secp256k1.N ∧
      0 < BigEndian.value s ∧ (BigEndian.value s : Int) < secp256k1.N
  · have h27 : 27 ≤ BigEndian.value vb % 256 := by omega
    rw [if_pos hvalid, ofNat_Uint64_sub h27, if_neg (by simp; omega)]
  · rw [if_neg hvalid]
    simp
    grind

/-- The word `0x11b` as `v` recovers as 27 does: wherever recovery with id 0 succeeds,
`ecrecoverFunc` returns the address word, although `v` is neither 27 nor 28. -/
theorem ecrecoverFunc_v_0x11b (c : Crypto) {hash r s pubKey : Bytes} (hh : hash.length = 32)
    (hr : r.length = 32) (hs : s.length = 32)
    (hr0 : 0 < BigEndian.value r) (hrN : (BigEndian.value r : Int) < secp256k1.N)
    (hs0 : 0 < BigEndian.value s) (hsN : (BigEndian.value s : Int) < secp256k1.N)
    (hkey : c.Ecrecover hash (r ++ s ++ [0]) = .ok pubKey) :
    ecrecoverFunc c (hash ++ BigEndian.fixed 32 0x11b ++ r ++ s) =
      LeftPadBytes ((c.Keccak256 (pubKey.drop 1)).drop 12) 32 := by
  have hv : BigEndian.value (BigEndian.fixed 32 0x11b) % 256 = 27 := by
    rw [BigEndian.value_fixed]
    norm_num
  have hsplit := ecrecoverFunc_split c hh (BigEndian.length_fixed 32 0x11b) hr hs []
  rw [List.append_nil] at hsplit
  -- the recovery id is the byte 27 less 27
  rw [hsplit, hv, if_pos ⟨Or.inl rfl, hr0, hrN, hs0, hsN⟩, show UInt8.ofNat (27 - 27) = 0 from rfl,
    hkey]

/-- Primitives whose recovery succeeds on every signature, with constant digests. -/
def constCrypto : Crypto where
  Keccak256 _ := List.replicate 32 1
  Sha256 _ := List.replicate 32 2
  Ripemd160 _ := List.replicate 20 3
  Ecrecover _ _ := .ok (List.replicate 65 4)
  length_Keccak256 _ := by simp
  length_Ecrecover _ _ _ h := by cases h; simp

theorem ecrecoverFunc_v_0x11b_const :
    ecrecoverFunc constCrypto
        (List.replicate 32 0 ++ BigEndian.fixed 32 0x11b ++ BigEndian.fixed 32 1 ++
          BigEndian.fixed 32 1) =
      LeftPadBytes ((List.replicate 32 (1 : UInt8)).drop 12) 32 :=
  ecrecoverFunc_v_0x11b constCrypto (by decide) (by decide) (by decide) (by decide) (by decide)
    (by decide) (by decide) rfl

end Vm
end Ethcore
