import Ethcore.Rlp.Encode

/-!
# RLPx frames: `WriteMsg` of `p2p/rlpx.go`

A frame is a 32-byte header, holding the frame size in three bytes and its MAC, the
encrypted message code and payload padded to 16 bytes, and a 16-byte frame MAC.  The AES-CTR
keystream and the running Keccak MAC are parameters: `XORKeyStream` and `Write` on states `σ`
and `μ`.  `io.Copy` writes the payload in chunks; the model writes it at once, which is the
same for a keystream cipher and a hash.

The frame size is summed as a `uint32`: `fsize := uint32(len(ptype)) + msg.Size`.  The sum
wraps, so the check `fsize > maxUint24` lets a frame of `2^32` bytes through
(`WriteMsg_ok_iff`).
-/

namespace Ethcore
namespace P2p

/-- The primitives a frame is written with: the keystream of `enc` and `dec` on states `σ`,
the MAC hash on states `μ` (`Write` and `Sum`), and the block encryption of `macCipher`. -/
structure FramePrimitives (σ μ : Type) where
  XORKeyStream : σ → Bytes → Bytes × σ
  Write : μ → Bytes → μ
  Sum : μ → Bytes
  Encrypt : Bytes → Bytes

/-- `rlpxFrameRW`: the cipher and MAC states of one side. -/
structure rlpxFrameRW (σ μ : Type) where
  enc : σ
  dec : σ
  egressMAC : μ
  ingressMAC : μ

/-- `Msg`: the code, the declared size and the payload. -/
structure Msg where
  Code : Nat
  Size : UInt32
  Payload : Bytes

/-- `maxUint24`, `^uint32(0) >> 8`. -/
def maxUint24 : UInt32 := ~~~(0 : UInt32) >>> 8

/-- `zeroHeader`: the RLP list `[0, 0]` of the header's protocol fields. -/
def zeroHeader : Bytes := [0xC2, 0x80, 0x80]

/-- `putInt24`: the low three bytes, big-endian. -/
def putInt24 (v : UInt32) : Bytes := [(v >>> 16).toUInt8, (v >>> 8).toUInt8, v.toUInt8]

/-- `readInt24`. -/
def readInt24 (b : Bytes) : UInt32 :=
  (b.getD 2 0).toUInt32 ||| (b.getD 1 0).toUInt32 <<< 8 ||| (b.getD 0 0).toUInt32 <<< 16

variable {σ μ : Type} (P : FramePrimitives σ μ)

/-- `updateMAC`: reseed the MAC with the encrypted MAC digest XOR the seed, and return the
first 16 bytes of the new digest. -/
def updateMAC (mac : μ) (seed : Bytes) : μ × Bytes :=
  let aesbuf := P.Encrypt ((P.Sum mac).take 16)
  let aesbuf := List.zipWith (· ^^^ ·) aesbuf seed
  let mac := P.Write mac aesbuf
  (mac, (P.Sum mac).take 16)

/-- A write through `tee`: encrypt with `enc`, and write the ciphertext to the connection
and to the egress MAC. -/
def teeWrite (enc : σ) (mac : μ) (data : Bytes) : σ × μ × Bytes :=
  let (c, enc) := P.XORKeyStream enc data
  (enc, P.Write mac c, c)

/-- `WriteMsg`: the new state of the writer and the bytes written to the connection. -/
def WriteMsg (rw : rlpxFrameRW σ μ) (msg : Msg) : Except String (rlpxFrameRW σ μ × Bytes) :=
  let ptype := Rlp.EncodeToBytes (.bytes (BigEndian.minimal msg.Code))
  -- a `uint32` sum
  let fsize : UInt32 := UInt32.ofNat ptype.length + msg.Size
  if fsize > maxUint24 then .error "message size overflows uint24"
  else
    let (header, enc) := P.XORKeyStream rw.enc (putInt24 fsize ++ zeroHeader ++ List.replicate 10 0)
    let (egress, headerMAC) := updateMAC P rw.egressMAC header
    let (enc, egress, code) := teeWrite P enc egress ptype
    let (enc, egress, payload) := teeWrite P enc egress msg.Payload
    let padding := fsize.toNat % 16
    let (enc, egress, pad) :=
      if padding > 0 then teeWrite P enc egress (List.replicate (16 - padding) 0)
      else (enc, egress, [])
    let (egress, frameMAC) := updateMAC P egress (P.Sum egress)
    .ok ({ rw with enc := enc, egressMAC := egress },
      header ++ headerMAC ++ code ++ payload ++ pad ++ frameMAC)

/-! ### The size check -/

theorem toNat_maxUint24 : maxUint24.toNat = 2 ^ 24 - 1 := by decide

/-- `WriteMsg` writes a frame exactly when its size modulo `2^32` fits 24 bits. -/
theorem WriteMsg_ok_iff (rw : rlpxFrameRW σ μ) (code : Nat) (payload : Bytes) :
    (∃ r, WriteMsg P rw ⟨code, UInt32.ofNat payload.length, payload⟩ = .ok r) ↔
      ((Rlp.EncodeToBytes (.bytes (BigEndian.minimal code))).length + payload.length) % 2 ^ 32 <
        2 ^ 24 := by
  -- the `uint32` sum of the sizes
  have hsum : (UInt32.ofNat (Rlp.EncodeToBytes (.bytes (BigEndian.minimal code))).length +
      UInt32.ofNat payload.length).toNat =
      ((Rlp.EncodeToBytes (.bytes (BigEndian.minimal code))).length + payload.length) % 2 ^ 32 := by
    rw [UInt32.toNat_add, UInt32.toNat_ofNat', UInt32.toNat_ofNat', ← Nat.add_mod]
  unfold WriteMsg
  dsimp only
  split
  · rename_i hgt
    rw [gt_iff_lt, UInt32.lt_iff_toNat_lt, toNat_maxUint24, hsum] at hgt
    simp only [reduceCtorEq, exists_false, false_iff]
    omega
  · rename_i hgt
    rw [gt_iff_lt, UInt32.lt_iff_toNat_lt, toNat_maxUint24, hsum] at hgt
    simp only [Except.ok.injEq, exists_eq', true_iff]
    omega

/-- Primitives that leave the data as it is. -/
def plainPrimitives : FramePrimitives Unit Unit where
  XORKeyStream _ data := (data, ())
  Write _ _ := ()
  Sum _ := List.replicate 32 0
  Encrypt block := block

theorem WriteMsg_ok_of_wrapped :
    ∃ r, WriteMsg plainPrimitives ⟨(), (), (), ()⟩
      ⟨0, UInt32.ofNat (2 ^ 32 - 1), List.replicate (2 ^ 32 - 1) 0⟩ = .ok r := by
  have h := (WriteMsg_ok_iff plainPrimitives ⟨(), (), (), ()⟩ 0 (List.replicate (2 ^ 32 - 1) 0)).mpr
  rw [List.length_replicate] at h
  exact h (by decide)

end P2p
end Ethcore
