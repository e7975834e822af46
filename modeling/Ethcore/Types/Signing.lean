import Ethcore.Vm.Contracts

/-!
# Transaction signatures: `transaction_signing.go`

A signer turns a 65-byte signature `r ‖ s ‖ recovery id` into the `V, R, S` fields of a
transaction (`WithSignature`) and reads the sender's public key back from them
(`PublicKey`).  The EIP-155 signer of chain id `c` writes `V = 35 + 2c + recovery id`, so
that `V` carries the chain id: `isProtectedV`, `deriveChainId` and `normaliseV` take it
apart again, with `uint64` and byte arithmetic.

For a positive chain id the round trip holds: the transaction is protected, its chain id is
`c`, its `V` normalises to `27 + recovery id`, and `Sender` under the same signer recovers
the signing key's address, while under any other chain id it fails with
`ErrInvalidChainId` (`Sender_SignECDSA`).  For chain id `0` the signer writes the bare
recovery id, `0` or `1`, without the `27` the basic signer adds.  Such a `V` is neither `27`
nor `28`, so the transaction counts as protected, its chain id is read through a `uint64`
subtraction that wraps, and `Sender` under the same signer fails with `ErrInvalidChainId`.

The secp256k1 primitives are parameters: the hash and recovery of `Vm.Crypto`, and `Sign`
with the public key of a private key.  That the two are inverse on the signatures `Sign`
makes is a hypothesis (`SignRecovers`), as the source's tests take it.  The signing hash is
the Keccak-256 of the RLP list of the transaction's fields, from `Rlp.Item`.
-/

namespace Ethcore
namespace Types

open Common Vm Rlp

/-- `txdata`, the consensus fields of a transaction: the amounts are the unsigned integers
RLP decodes, the signature values the `big.Int`s the signers write. -/
structure txdata where
  AccountNonce : Nat
  Price : Nat
  GasLimit : Nat
  Recipient : Option Bytes
  Amount : Nat
  Payload : Bytes
  V : Int
  R : Int
  S : Int

/-- The two signers: `BasicSigner`, and the EIP-155 `ChainIdSigner` of a chain id (its
`chainIdMul` is twice the chain id). -/
inductive Signer where
  | BasicSigner
  | ChainIdSigner (chainId : Nat)

def NewChainIdSigner (chainId : Nat) : Signer := .ChainIdSigner chainId

/-- `sigCache`: a derived sender and the signer it was derived with. -/
structure sigCache where
  signer : Signer
  «from» : Bytes

/-- `Transaction`: the fields, the signer it carries, and the cache of its sender. -/
structure Transaction where
  data : txdata
  signer : Signer
  «from» : Option sigCache

/-- The errors of `PublicKey`. -/
inductive SignerError where
  /-- `ErrInvalidChainId`, "invalid chain id for signer" -/
  | ErrInvalidChainId
  /-- `ErrInvalidSig`, "invalid transaction v, r, s values" -/
  | ErrInvalidSig
  /-- "invalid public key" -/
  | invalidPublicKey
  /-- an error of `crypto.Ecrecover` -/
  | recover (msg : String)
  deriving DecidableEq, Repr

/-! ### Taking `V` apart -/

/-- `isProtectedV`: every `V` but `27` and `28`. -/
def isProtectedV (V : Int) : Bool :=
  if V.natAbs.size ≤ 8 then
    let v := Uint64 V
    v ≠ 27 ∧ v ≠ 28
  else true

/-- `normaliseV`: for an EIP-155 signer with a chain id, `V - 2c - 35 + 27` in `uint64`
arithmetic, cut to a byte, unless `V` is `27` or `28` already; else the low byte of `V`. -/
def normaliseV (s : Signer) (v : Int) : UInt8 :=
  match s with
  | .ChainIdSigner chainId =>
    let stdV := v.natAbs.size ≤ 8 ∧ (Uint64 v = 27 ∨ Uint64 v = 28)
    if chainId.size > 0 ∧ ¬ stdV then
      (UInt64.ofNat (Uint64 (v - 2 * chainId)) - 35 + 27).toUInt8
    else UInt8.ofNat (Uint64 v)
  | .BasicSigner => UInt8.ofNat (Uint64 v)

/-- `deriveChainId`: `0` for `27` and `28`, else `(V - 35) / 2`, in `uint64` arithmetic
while `V` fits 64 bits. -/
def deriveChainId (v : Int) : Int :=
  if v.natAbs.size ≤ 64 then
    let v := Uint64 v
    if v = 27 ∨ v = 28 then 0
    else ((UInt64.ofNat v - 35) / 2).toNat
  else (v - 35) / 2

def Transaction.ChainId (tx : Transaction) : Int := deriveChainId tx.data.V

def Transaction.Protected (tx : Transaction) : Bool := isProtectedV tx.data.V

/-- `deriveSigner`, the signer `DecodeRLP` gives a decoded transaction.  (A decoded `V` is
never negative, and neither is the chain id derived from it.) -/
def deriveSigner (V : Int) : Signer :=
  if V.sign ≠ 0 ∧ isProtectedV V then NewChainIdSigner (deriveChainId V).toNat
  else .BasicSigner

/-! ### The signers -/

/-- `Signer.Equal`. -/
def Signer.Equal : Signer → Signer → Bool
  | .BasicSigner, .BasicSigner => true
  | .ChainIdSigner c, .ChainIdSigner c' => c == c'
  | _, _ => false

/-- An unsigned integer as RLP encodes it: its minimal big-endian bytes. -/
def uintItem (n : Nat) : Item := .bytes (BigEndian.minimal n)

/-- `Signer.Hash`: the Keccak-256 of the RLP list of the fields, with the chain id and two
zeros behind them for an EIP-155 signer. -/
def Signer.Hash (c : Crypto) (s : Signer) (tx : Transaction) : Bytes :=
  let fields := [uintItem tx.data.AccountNonce, uintItem tx.data.Price,
    uintItem tx.data.GasLimit, .bytes (tx.data.Recipient.getD []), uintItem tx.data.Amount,
    .bytes tx.data.Payload]
  match s with
  | .BasicSigner => c.Keccak256 (Item.encode (.list fields))
  | .ChainIdSigner chainId =>
    c.Keccak256 (Item.encode (.list (fields ++ [uintItem chainId, uintItem 0, uintItem 0])))

/-- `Transaction.Hash`, `rlpHash(tx)`: the Keccak-256 of the RLP list of the nine fields.  RLP
refuses a negative `*big.Int`, and `rlpHash` then hashes no bytes at all. -/
def Transaction.Hash (c : Crypto) (tx : Transaction) : Bytes :=
  if tx.data.V < 0 ∨ tx.data.R < 0 ∨ tx.data.S < 0 then c.Keccak256 []
  else c.Keccak256 (Item.encode (.list [uintItem tx.data.AccountNonce, uintItem tx.data.Price,
    uintItem tx.data.GasLimit, .bytes (tx.data.Recipient.getD []), uintItem tx.data.Amount,
    .bytes tx.data.Payload, uintItem tx.data.V.toNat, uintItem tx.data.R.toNat,
    uintItem tx.data.S.toNat]))

theorem length_Hash (c : Crypto) (tx : Transaction) : (tx.Hash c).length = 32 := by
  unfold Transaction.Hash
  split <;> exact c.length_Keccak256 _

/-- `WithSignature`: a copy of the transaction with the signature's values, and an empty
sender cache; `none` is the panic on a signature that is not 65 bytes long.  The basic signer
writes `V = 27 + recovery id`; the EIP-155 signer writes `35 + 2c + recovery id` for a
positive chain id, and the bare recovery id for chain id `0`. -/
def WithSignature (s : Signer) (tx : Transaction) (sig : Bytes) : Option Transaction :=
  if h : sig.length ≠ 65 then none
  else
    let v : UInt8 := sig.get ⟨64, by omega⟩
    let R : Int := BigEndian.value (sig.take 32)
    let S : Int := BigEndian.value ((sig.drop 32).take 32)
    let V : Int :=
      match s with
      | .BasicSigner => (v + 27).toNat
      | .ChainIdSigner chainId =>
        if chainId.size > 0 then (v + 35).toNat + 2 * chainId else v.toNat
    some ⟨{ tx.data with R := R, S := S, V := V }, tx.signer, none⟩

/-- `SignECDSA`: sign the signer's hash with `Sign` and write the signature in; the error of
`Sign` is passed on. -/
def SignECDSA {Key : Type} (c : Crypto) (Sign : Bytes → Key → Except String Bytes) (s : Signer)
    (tx : Transaction) (prv : Key) : Option (Except String Transaction) :=
  match Sign (s.Hash c tx) prv with
  | .error e => some (.error e)
  | .ok sig => (WithSignature s tx sig).map .ok

/-- The recovery shared by both signers: the signature values in the uncompressed format,
recovered against the signer's hash, and the key checked to be an uncompressed point. -/
def recoverPlain (c : Crypto) (s : Signer) (tx : Transaction) (V : UInt8) :
    Except SignerError Bytes :=
  -- `R.Bytes()` copied into the last bytes of a 32-byte slot
  let sig := LeftPadBytes (BigEndian.minimal tx.data.R.toNat) 32 ++
    LeftPadBytes (BigEndian.minimal tx.data.S.toNat) 32 ++ [V - 27]
  match c.Ecrecover (s.Hash c tx) sig with
  | .error e => .error (.recover e)
  | .ok pub => if pub.head? ≠ some 4 then .error .invalidPublicKey else .ok pub

/-- `BasicSigner.PublicKey`: a `V` of one byte, `27` or `28`, with the Frontier checks on
`R` and `S`. -/
def BasicSigner.PublicKey (c : Crypto) (tx : Transaction) : Except SignerError Bytes :=
  if tx.data.V.natAbs.size > 8 then .error .ErrInvalidSig
  else
    let V := UInt8.ofNat (Uint64 tx.data.V)
    if !ValidateSignatureValues V tx.data.R tx.data.S false then .error .ErrInvalidSig
    else recoverPlain c .BasicSigner tx V

/-- `ChainIdSigner.PublicKey`: an unprotected transaction goes to the basic signer; a
protected one must carry the signer's chain id, and its normalised `V` passes the Homestead
checks. -/
def ChainIdSigner.PublicKey (c : Crypto) (chainId : Nat) (tx : Transaction) :
    Except SignerError Bytes :=
  if !tx.Protected then BasicSigner.PublicKey c tx
  else if tx.ChainId ≠ chainId then .error .ErrInvalidChainId
  else
    let V := normaliseV (.ChainIdSigner chainId) tx.data.V
    if !ValidateSignatureValues V tx.data.R tx.data.S true then .error .ErrInvalidSig
    else recoverPlain c (.ChainIdSigner chainId) tx V

/-- `Signer.PublicKey`, the interface method. -/
def Signer.PublicKey (c : Crypto) : Signer → Transaction → Except SignerError Bytes
  | .BasicSigner => BasicSigner.PublicKey c
  | .ChainIdSigner chainId => ChainIdSigner.PublicKey c chainId

/-- `Sender`: the cached sender if it was derived with an equal signer, else the last 20
bytes of the Keccak-256 of the public key, which is cached with the signer. -/
def Sender (c : Crypto) (signer : Signer) (tx : Transaction) :
    Except SignerError Bytes × Transaction :=
  let derive : Except SignerError Bytes × Transaction :=
    match signer.PublicKey c tx with
    | .error e => (.error e, tx)
    | .ok pubkey =>
      let addr := (c.Keccak256 (pubkey.drop 1)).drop 12
      (.ok addr, { tx with «from» := some ⟨signer, addr⟩ })
  match tx.«from» with
  | some sc => if sc.signer.Equal signer then (.ok sc.«from», tx) else derive
  | none => derive

/-! ### The EIP-155 `V` -/

section Eip155

variable {chainId : Nat} {r : UInt8}

/-- A `V` from 37 on is protected. -/
theorem isProtectedV_of_ge {V : Int} (hV : 37 ≤ V) : isProtectedV V = true := by
  unfold isProtectedV
  split_ifs with hsize
  · -- a `V` of one byte is its own low word
    have hlt : V.natAbs < 2 ^ 8 := Nat.size_le.mp hsize
    have hU : Uint64 V = V.natAbs := by unfold Uint64; omega
    simp only [hU, decide_eq_true_eq]
    omega
  · rfl

/-- The low word of a `V` that fits it is `V` itself. -/
theorem Uint64_eip155 (h : (r.toNat + 35 + 2 * chainId : Int).natAbs.size ≤ 64) :
    Uint64 (r.toNat + 35 + 2 * chainId) = r.toNat + 35 + 2 * chainId := by
  have hlt := Nat.size_le.mp h
  unfold Uint64
  omega

theorem deriveChainId_eip155 (hr : r.toNat ≤ 1) :
    deriveChainId (r.toNat + 35 + 2 * chainId) = chainId := by
  unfold deriveChainId
  split_ifs with hsize
  · -- the `uint64` path: `V` is 37 or more, and `V - 35` does not wrap
    have hlt := Nat.size_le.mp hsize
    have hword : r.toNat + 35 + 2 * chainId < 2 ^ 64 := by omega
    dsimp only
    rw [Uint64_eip155 hsize, if_neg (by omega), UInt64.toNat_div, UInt64.toNat_sub_of_le]
    · simp [UInt64.toNat_ofNat']
      omega
    · simp [UInt64.le_iff_toNat_le, UInt64.toNat_ofNat']
      omega
  · omega

theorem normaliseV_eip155 (hc : 0 < chainId) (hr : r.toNat ≤ 1) :
    normaliseV (.ChainIdSigner chainId) (r.toNat + 35 + 2 * chainId) = r + 27 := by
  -- `V` is neither 27 nor 28, and the chain id has bits
  have hstd : ¬ ((r.toNat + 35 + 2 * chainId : Int).natAbs.size ≤ 8 ∧
      (Uint64 (r.toNat + 35 + 2 * chainId) = 27 ∨ Uint64 (r.toNat + 35 + 2 * chainId) = 28)) := by
    rintro ⟨hsize, h27⟩
    rw [Uint64_eip155 (hsize.trans (by norm_num))] at h27
    omega
  have hbits : chainId.size > 0 := Nat.size_pos.mpr hc
  have hsub : Uint64 ((r.toNat + 35 + 2 * chainId : Int) - 2 * chainId) = r.toNat + 35 := by
    unfold Uint64
    omega
  simp only [normaliseV, if_pos (And.intro hbits hstd), hsub]
  -- the recovery id is `0` or `1`
  rcases Nat.le_one_iff_eq_zero_or_eq_one.mp hr with h | h
  · rw [show r = 0 from UInt8.toNat_inj.mp (by simp [h])]
    decide
  · rw [show r = 1 from UInt8.toNat_inj.mp (by simp [h])]
    decide

end Eip155

/-! ### Signing and recovering -/

/-- `crypto.Sign` and `crypto.Ecrecover` are inverse on the signatures `Sign` makes: a
signature is `R ‖ S ‖ recovery id` with 32-byte `R` and `S`, a recovery id `0` or `1` and
values that pass the Homestead checks, and `Ecrecover` of the signed hash gives back the key's
public key, an uncompressed point. -/
def SignRecovers {Key : Type} (c : Crypto) (Sign : Bytes → Key → Except String Bytes)
    (PubKey : Key → Bytes) : Prop :=
  ∀ hash prv sig, Sign hash prv = .ok sig →
    ∃ Rb Sb r, sig = Rb ++ Sb ++ [r] ∧ Rb.length = 32 ∧ Sb.length = 32 ∧ r.toNat ≤ 1 ∧
      ValidateSignatureValues (r + 27) (BigEndian.value Rb) (BigEndian.value Sb) true ∧
      c.Ecrecover hash sig = .ok (PubKey prv) ∧ (PubKey prv).head? = some 4

section Signed

variable {c : Crypto} {chainId : Nat} {Rb Sb : Bytes} {r : UInt8}

/-- The EIP-155 signer writes `R` and `S` as they are, and `V = 35 + 2c + recovery id`, or
the bare recovery id for chain id `0`. -/
theorem WithSignature_ChainIdSigner (tx : Transaction) (hR : Rb.length = 32)
    (hS : Sb.length = 32) (hr : r.toNat ≤ 1) :
    WithSignature (.ChainIdSigner chainId) tx (Rb ++ Sb ++ [r]) =
      some ⟨{ tx.data with
              R := BigEndian.value Rb
              S := BigEndian.value Sb
              V := if 0 < chainId then r.toNat + 35 + 2 * chainId else r.toNat },
        tx.signer, none⟩ := by
  have hlen : (Rb ++ Sb ++ [r]).length = 65 := by simp [hR, hS]
  have hget : (Rb ++ Sb ++ [r]).get ⟨64, by omega⟩ = r := by
    simp [List.getElem_append_right, hR, hS]
  have htake : (Rb ++ Sb ++ [r]).take 32 = Rb := by
    simp [hR]
  have hdrop : ((Rb ++ Sb ++ [r]).drop 32).take 32 = Sb := by
    simp [hR, hS]
  -- the byte addition `sig[64] + 35` does not wrap
  have hadd : (r + 35).toNat = r.toNat + 35 := by
    rw [UInt8.toNat_add]
    simp only [UInt8.reduceToNat]
    omega
  simp only [WithSignature, hlen, ne_eq, not_true_eq_false, dite_false, hget, htake, hdrop,
    Nat.size_pos, hadd]
  split_ifs <;> simp

/-- The recovery of a signature `R ‖ S ‖ recovery id` whose words the transaction holds. -/
theorem recoverPlain_eq (s : Signer) (tx : Transaction) (hR : Rb.length = 32)
    (hS : Sb.length = 32) (hRv : tx.data.R = BigEndian.value Rb)
    (hSv : tx.data.S = BigEndian.value Sb) {pub : Bytes}
    (hrec : c.Ecrecover (s.Hash c tx) (Rb ++ Sb ++ [r]) = .ok pub) (hpub : pub.head? = some 4) :
    recoverPlain c s tx (r + 27) = .ok pub := by
  -- the words are written back at their own width
  have hword : ∀ bs : Bytes, bs.length = 32 →
      LeftPadBytes (BigEndian.minimal (BigEndian.value bs : Int).toNat) 32 = bs := by
    intro bs hbs
    rw [Int.toNat_natCast, LeftPadBytes_minimal (hbs ▸ BigEndian.value_lt bs), ← hbs,
      BigEndian.fixed_value]
  simp only [recoverPlain, hRv, hSv, hword Rb hR, hword Sb hS, UInt8.add_sub_cancel, hrec, hpub,
    ne_eq, not_true_eq_false, if_false]

/-- A transaction signed by the EIP-155 signer of a positive chain id carries that chain id:
its key is recovered under the same signer, and every other chain id is refused. -/
theorem ChainIdSigner_PublicKey_eip155 (tx : Transaction) (hR : Rb.length = 32)
    (hS : Sb.length = 32) (hr : r.toNat ≤ 1) (hc : 0 < chainId)
    (hvalid : ValidateSignatureValues (r + 27) (BigEndian.value Rb) (BigEndian.value Sb) true)
    {pub : Bytes}
    (hrec : c.Ecrecover ((Signer.ChainIdSigner chainId).Hash c tx) (Rb ++ Sb ++ [r]) = .ok pub)
    (hpub : pub.head? = some 4) (c' : Nat) :
    ChainIdSigner.PublicKey c c' ⟨{ tx.data with
        R := BigEndian.value Rb
        S := BigEndian.value Sb
        V := r.toNat + 35 + 2 * chainId }, tx.signer, none⟩ =
      if c' = chainId then .ok pub else .error .ErrInvalidChainId := by
  have hprot := isProtectedV_of_ge (V := r.toNat + 35 + 2 * chainId) (by omega)
  have hid : deriveChainId (r.toNat + 35 + 2 * chainId) = chainId := deriveChainId_eip155 hr
  unfold ChainIdSigner.PublicKey
  simp only [Transaction.Protected, Transaction.ChainId, hprot, hid, Bool.not_true,
    Bool.false_eq_true, if_false]
  by_cases hc' : c' = chainId
  · -- the same chain: the normalised `V` is `27 + recovery id`, and the key is recovered
    subst hc'
    rw [if_neg (by simp), if_pos rfl, normaliseV_eip155 hc hr, hvalid]
    exact recoverPlain_eq _ _ hR hS rfl rfl hrec hpub
  · rw [if_pos (by omega), if_neg hc']

/-- A bare recovery id is a `V` of one byte, below 27. -/
theorem bare_size (hr : r.toNat ≤ 1) : ((r.toNat : Int)).natAbs.size ≤ 8 :=
  Nat.size_le.mpr (by simp; omega)

/-- A bare recovery id reads as protected. -/
theorem isProtectedV_bare (hr : r.toNat ≤ 1) : isProtectedV r.toNat = true := by
  have hU : Uint64 r.toNat = r.toNat := by simp [Uint64]
  simp only [isProtectedV, if_pos (bare_size hr), hU, decide_eq_true_eq]
  omega

/-- The chain id of a bare recovery id: `(V - 35) / 2` in `uint64`, where `V - 35` wraps to
nearly `2^64`. -/
theorem deriveChainId_bare (hr : r.toNat ≤ 1) : deriveChainId r.toNat ≠ 0 := by
  have hU : Uint64 r.toNat = r.toNat := by simp [Uint64]
  have hsize64 : ((r.toNat : Int)).natAbs.size ≤ 64 := (bare_size hr).trans (by norm_num)
  simp only [deriveChainId, if_pos hsize64]
  rw [hU, if_neg (by omega)]
  rcases Nat.le_one_iff_eq_zero_or_eq_one.mp hr with h | h <;> rw [h] <;> decide

/-- The EIP-155 signer of chain id `0` writes the bare recovery id, which reads as protected
and carries a chain id that the `uint64` subtraction wraps: the signer refuses its own
signature. -/
theorem ChainIdSigner_PublicKey_zero (tx : Transaction) (hr : r.toNat ≤ 1) (R S : Int) :
    ChainIdSigner.PublicKey c 0 ⟨{ tx.data with R := R, S := S, V := r.toNat }, tx.signer, none⟩ =
      .error .ErrInvalidChainId := by
  unfold ChainIdSigner.PublicKey
  simp only [Transaction.Protected, Transaction.ChainId, isProtectedV_bare hr, Bool.not_true,
    Bool.false_eq_true, if_false, Nat.cast_zero]
  rw [if_pos (deriveChainId_bare hr)]

end Signed

/-! ### The round trip through `Sender` -/

theorem Sender_SignECDSA {Key : Type} (c : Crypto) (Sign : Bytes → Key → Except String Bytes)
    (PubKey : Key → Bytes) (hinv : SignRecovers c Sign PubKey) (chainId : Nat)
    (tx : Transaction) (prv : Key) (sig : Bytes)
    (hsig : Sign ((NewChainIdSigner chainId).Hash c tx) prv = .ok sig) :
    ∃ tx', SignECDSA c Sign (NewChainIdSigner chainId) tx prv = some (.ok tx') ∧
      (0 < chainId →
        tx'.Protected = true ∧ tx'.ChainId = chainId ∧
        sig.getLast?.map (· + 27) = some (normaliseV (NewChainIdSigner chainId) tx'.data.V) ∧
        (Sender c (NewChainIdSigner chainId) tx').1 =
          .ok ((c.Keccak256 ((PubKey prv).drop 1)).drop 12) ∧
        ∀ c' : Nat, c' ≠ chainId →
          (Sender c (NewChainIdSigner c') tx').1 = .error .ErrInvalidChainId) ∧
      (chainId = 0 →
        (tx'.data.V = 0 ∨ tx'.data.V = 1) ∧ tx'.Protected = true ∧ tx'.ChainId ≠ 0 ∧
        (Sender c (NewChainIdSigner 0) tx').1 = .error .ErrInvalidChainId) := by
  simp only [NewChainIdSigner] at hsig ⊢
  obtain ⟨Rb, Sb, r, rfl, hR, hS, hr, hvalid, hrec, hpub⟩ := hinv _ _ _ hsig
  -- the signed copy
  have hsign := congrArg (Option.map (@Except.ok String Transaction))
    (@WithSignature_ChainIdSigner chainId _ _ _ tx hR hS hr)
  rw [Option.map_some] at hsign
  refine ⟨_, by rw [SignECDSA, hsig]; exact hsign, ?_, ?_⟩
  · -- a positive chain id: `V = 35 + 2c + recovery id`
    intro hc
    simp only [if_pos hc]
    have hkey := ChainIdSigner_PublicKey_eip155 tx hR hS hr hc hvalid hrec hpub
    refine ⟨isProtectedV_of_ge (V := r.toNat + 35 + 2 * chainId) (by omega),
      deriveChainId_eip155 hr, ?_, ?_, fun c' hc' => ?_⟩
    · simp [normaliseV_eip155 hc hr]
    · simp [Sender, Signer.PublicKey, hkey]
    · simp [Sender, Signer.PublicKey, hkey, hc']
  · -- chain id `0`: the bare recovery id
    rintro rfl
    simp only [lt_irrefl, if_false]
    have hkey := ChainIdSigner_PublicKey_zero (c := c) tx hr (BigEndian.value Rb)
      (BigEndian.value Sb)
    refine ⟨?_, ?_, ?_, by simp [Sender, Signer.PublicKey, hkey]⟩
    · rcases Nat.le_one_iff_eq_zero_or_eq_one.mp hr with h | h <;> simp [h]
    · exact isProtectedV_bare hr
    · exact deriveChainId_bare hr

/-- A signature scheme for the witnesses: every hash is signed with `R = S = 1` and recovery
id `0`, and every key's public key is 65 bytes `4`, which `constCrypto` recovers. -/
def constSign (_ : Bytes) (_ : Unit) : Except String Bytes :=
  .ok (BigEndian.fixed 32 1 ++ BigEndian.fixed 32 1 ++ [0])

def constPubKey (_ : Unit) : Bytes := List.replicate 65 4

theorem constSign_recovers : SignRecovers constCrypto constSign constPubKey := by
  intro hash prv sig h
  cases h
  exact ⟨_, _, 0, rfl, BigEndian.length_fixed 32 1, BigEndian.length_fixed 32 1, by decide,
    by decide, rfl, rfl⟩

/-- The transaction with every field zero. -/
def zeroTx : Transaction := ⟨⟨0, 0, 0, none, 0, [], 0, 0, 0⟩, .BasicSigner, none⟩

theorem Sender_SignECDSA_chain_zero :
    ∃ tx', SignECDSA constCrypto constSign (NewChainIdSigner 0) zeroTx () = some (.ok tx') ∧
      (0 < 0 →
        tx'.Protected = true ∧ tx'.ChainId = (0 : Nat) ∧
        (BigEndian.fixed 32 1 ++ BigEndian.fixed 32 1 ++ [0]).getLast?.map (· + 27) =
          some (normaliseV (NewChainIdSigner 0) tx'.data.V) ∧
        (Sender constCrypto (NewChainIdSigner 0) tx').1 =
          .ok ((constCrypto.Keccak256 ((constPubKey ()).drop 1)).drop 12) ∧
        ∀ c' : Nat, c' ≠ 0 →
          (Sender constCrypto (NewChainIdSigner c') tx').1 = .error .ErrInvalidChainId) ∧
      (0 = 0 →
        (tx'.data.V = 0 ∨ tx'.data.V = 1) ∧ tx'.Protected = true ∧ tx'.ChainId ≠ 0 ∧
        (Sender constCrypto (NewChainIdSigner 0) tx').1 = .error .ErrInvalidChainId) :=
  Sender_SignECDSA constCrypto constSign constPubKey constSign_recovers 0 zeroTx () _ rfl

end Types
end Ethcore
