import Ethcore.Discover.Table
import Ethcore.Lib.Search
import Mathlib.Data.Nat.Size
import Mathlib.Data.Finset.Card

/-!
# Distances between node hashes: `p2p/discover/distance.go`

Discovery measures how far two nodes are by the XOR of their 32-byte hashes, read as a
big-endian number.  `distcmp` compares two such distances byte by byte, `logdist` counts the
bits of one from its first non-zero byte with a table of leading zeros, and `closest` keeps
the sixteen nodes nearest a target in a fixed array, each `Add` placed by `sort.Search`.

`distcmp_eq_sign` and `logdist_eq_size` say that the byte loops compute the sign of a
difference and the bit length of the big-endian XOR.  `DistinctNetSet.key` keeps the address
family and the first `Subnet` bits of an address (`key_eq_iff`).

`closest.Add` is described once, on slots that hold a list and then nil (`Add_cases`); the
invariant `closest.Inv` (sorted, nearest, of nodes added) follows from it over a run
(`Inv.foldl`).  It rests on one hash to an id: ids are 64 bytes and hashes 32, so every hash has
colliding ids, and with them the slice takes one id twice.
-/

namespace Ethcore
namespace Discover

/-- The bytes of `a XOR b`, over the length of the shorter. -/
def xorBytes (a b : Bytes) : Bytes := List.zipWith (· ^^^ ·) a b

/-- The distance of `a` to `target`: `a XOR target` as a big-endian number. -/
def xorDist (target a : Bytes) : Nat := BigEndian.value (xorBytes a target)

/-- `distcmp`: `-1` where `a` is closer to `target`, `1` where `b` is, `0` where the two are
equal, by the first byte at which `a XOR target` and `b XOR target` differ. -/
def distcmp : Bytes → Bytes → Bytes → Int
  | t :: ts, x :: xs, y :: ys =>
    let da := x ^^^ t
    let db := y ^^^ t
    if da > db then 1 else if da < db then -1 else distcmp ts xs ys
  | _, _, _ => 0

/-- The table `lzcount` of `distance.go`: the leading zero bits of each byte. -/
def lzcountTable : List Nat :=
  [8, 7, 6, 6, 5, 5, 5, 5] ++ List.replicate 8 4 ++ List.replicate 16 3 ++
    List.replicate 32 2 ++ List.replicate 64 1 ++ List.replicate 128 0

set_option maxRecDepth 2000 in
theorem lzcount_eq_table (x : UInt8) : lzcount x = lzcountTable.getD x.toNat 0 :=
  BigEndian.forall_byte (P := fun x => lzcount x = lzcountTable.getD x.toNat 0)
    (by decide) x

@[simp] theorem xorBytes_cons (x t : UInt8) (xs ts : Bytes) :
    xorBytes (x :: xs) (t :: ts) = (x ^^^ t) :: xorBytes xs ts := rfl

@[simp] theorem length_xorBytes (a b : Bytes) : (xorBytes a b).length = min a.length b.length := by
  simp [xorBytes]

/-! ### `distcmp` -/

/-- One byte of `distcmp`: the first byte where the two distances differ decides. -/
theorem distcmp_cons (t x y : UInt8) (ts xs ys : Bytes) :
    distcmp (t :: ts) (x :: xs) (y :: ys) =
      if x ^^^ t > y ^^^ t then 1 else if x ^^^ t < y ^^^ t then -1 else distcmp ts xs ys :=
  rfl

/-- Two big-endian numbers with the same number of lower digits compare by their first digits,
and by the rest where those agree. -/
theorem sign_sub_of_lt {d e n va vb : Nat} (hva : va < n) (hvb : vb < n) :
    Int.sign (((d * n + va : Nat) : Int) - ((e * n + vb : Nat) : Int)) =
      if d > e then 1 else if d < e then -1 else Int.sign ((va : Int) - vb) := by
  rcases Nat.lt_trichotomy d e with hde | rfl | hde
  · have hmul : (d + 1) * n ≤ e * n := Nat.mul_le_mul_right n hde
    rw [if_neg (by omega), if_pos hde]
    exact Int.sign_eq_neg_one_of_neg (by push_cast; nlinarith)
  · simp
  · have hmul : (e + 1) * n ≤ d * n := Nat.mul_le_mul_right n hde
    rw [if_pos hde]
    exact Int.sign_eq_one_of_pos (by push_cast; nlinarith)

/-- `distcmp` is the sign of the difference of the two distances. -/
theorem distcmp_eq_sign : ∀ (t a b : Bytes), a.length = t.length → b.length = t.length →
    distcmp t a b = Int.sign ((xorDist t a : Int) - xorDist t b)
  | [], [], [], _, _ => rfl
  | t :: ts, x :: xs, y :: ys, ha, hb => by
    simp only [List.length_cons, Nat.add_right_cancel_iff] at ha hb
    have hva := BigEndian.value_lt (xorBytes xs ts)
    have hvb := BigEndian.value_lt (xorBytes ys ts)
    have hla : (xorBytes xs ts).length = ts.length := by simp [ha]
    have hlb : (xorBytes ys ts).length = ts.length := by simp [hb]
    rw [hla] at hva
    rw [hlb] at hvb
    have ih := distcmp_eq_sign ts xs ys ha hb
    simp only [xorDist] at ih
    simp only [distcmp_cons, xorDist, xorBytes_cons, BigEndian.value_cons, hla, hlb]
    rw [sign_sub_of_lt hva hvb, ← ih]
    simp only [gt_iff_lt, UInt8.lt_iff_toNat_lt]

theorem distcmp_self (t : Bytes) : ∀ a : Bytes, distcmp t a a = 0 := by
  induction t with
  | nil => intro a; rfl
  | cons u ts ih =>
    intro a
    cases a with
    | nil => rfl
    | cons x xs => simp [distcmp_cons, ih xs]

/-- On hashes of the target's length, `distcmp` is at least `0` exactly when `b` is no farther
than `a`. -/
theorem distcmp_nonneg_iff {t a b : Bytes} (ha : a.length = t.length) (hb : b.length = t.length) :
    distcmp t a b ≥ 0 ↔ xorDist t b ≤ xorDist t a := by
  rw [distcmp_eq_sign t a b ha hb, ge_iff_le, Int.sign_nonneg_iff]
  omega

theorem xorBytes_inj {t : Bytes} : ∀ {a b : Bytes}, a.length = t.length → b.length = t.length →
    xorBytes a t = xorBytes b t → a = b := by
  induction t with
  | nil =>
    intro a b ha hb _
    rw [List.length_eq_zero_iff.mp ha, List.length_eq_zero_iff.mp hb]
  | cons u ts ih =>
    intro a b ha hb h
    cases a with
    | nil => simp at ha
    | cons x xs =>
      cases b with
      | nil => simp at hb
      | cons y ys =>
        simp only [xorBytes_cons, List.cons.injEq, UInt8.xor_left_inj] at h
        simp only [List.length_cons, Nat.add_right_cancel_iff] at ha hb
        rw [h.1, ih ha hb h.2]

/-- Hashes of the target's length at one distance from it are equal. -/
theorem eq_of_xorDist_eq {t a b : Bytes} (ha : a.length = t.length) (hb : b.length = t.length)
    (h : xorDist t a = xorDist t b) : a = b :=
  xorBytes_inj ha hb (BigEndian.eq_of_value_eq (by simp [ha, hb]) h)

/-! ### `logdist` -/

theorem size_eq_log2_add_one {n : Nat} (hn : n ≠ 0) : n.size = n.log2 + 1 := by
  apply Nat.le_antisymm
  · exact Nat.size_le.mpr Nat.lt_log2_self
  · exact Nat.lt_size.mpr (Nat.log2_self_le hn)

/-- The bit length of a number with `m` bits below a non-zero head `d`. -/
theorem size_mul_pow_add {d v m : Nat} (hd : d ≠ 0) (hv : v < 2 ^ m) :
    (d * 2 ^ m + v).size = d.size + m := by
  have hs : 0 < d.size := Nat.size_pos.mpr (Nat.pos_of_ne_zero hd)
  have hlt : d < 2 ^ d.size := Nat.lt_size_self d
  have hge : 2 ^ (d.size - 1) ≤ d := Nat.lt_size.mp (by omega)
  apply Nat.le_antisymm
  · -- below `(d + 1) 2^m ≤ 2^(size d + m)`
    apply Nat.size_le.mpr
    have : (d + 1) * 2 ^ m ≤ 2 ^ d.size * 2 ^ m := Nat.mul_le_mul_right _ hlt
    rw [Nat.pow_add]
    nlinarith
  · -- at least `2^(size d - 1) 2^m`
    have hbit : d.size + m - 1 < (d * 2 ^ m + v).size := by
      apply Nat.lt_size.mpr
      have : 2 ^ (d.size - 1) * 2 ^ m ≤ d * 2 ^ m := Nat.mul_le_mul_right _ hge
      have he : d.size + m - 1 = (d.size - 1) + m := by omega
      rw [he, Nat.pow_add]
      omega
    omega

/-- The leading zeros of a byte and its bit length make eight. -/
theorem lzcount_add_size (x : UInt8) : lzcount x + x.toNat.size = 8 := by
  unfold lzcount
  split
  · rename_i hx
    subst hx
    rfl
  · rename_i hx
    have hne : x.toNat ≠ 0 := fun h => hx (UInt8.toNat_inj.mp (by simpa using h))
    have hlog : x.toNat.log2 < 8 := by
      have := x.toNat_lt
      exact (Nat.log2_lt hne).mpr this
    rw [size_eq_log2_add_one hne]
    omega

/-- The loop of `logdist` counts the leading zeros of the XOR. -/
theorem logdistLz_add_size : ∀ a b : Bytes, a.length = b.length →
    logdistLz a b + (BigEndian.value (xorBytes a b)).size = 8 * a.length
  | [], [], _ => rfl
  | x :: xs, y :: ys, h => by
    simp only [List.length_cons, Nat.add_right_cancel_iff] at h
    have ih := logdistLz_add_size xs ys h
    have hlen : (xorBytes xs ys).length = xs.length := by simp [h]
    simp only [logdistLz, xorBytes_cons, BigEndian.value_cons, hlen]
    split
    · -- a zero byte: eight more leading zeros
      rename_i hz
      rw [hz]
      simp only [UInt8.toNat_zero, Nat.zero_mul, Nat.zero_add, List.length_cons]
      omega
    · -- the first byte that differs: its leading zeros, then every bit after it
      rename_i hz
      have hne : (x ^^^ y).toNat ≠ 0 := fun h => hz (UInt8.toNat_inj.mp (by simpa using h))
      have hv := BigEndian.value_lt (xorBytes xs ys)
      rw [hlen, show (256 : Nat) ^ xs.length = 2 ^ (8 * xs.length) by
        rw [Nat.pow_mul]] at hv
      rw [show (256 : Nat) ^ xs.length = 2 ^ (8 * xs.length) by rw [Nat.pow_mul],
        size_mul_pow_add hne hv]
      have := lzcount_add_size (x ^^^ y)
      simp only [List.length_cons]
      omega

/-- `logdist` is the bit length of the XOR of the two hashes. -/
theorem logdist_eq_size {a b : Bytes} (h : a.length = b.length) :
    logdist a b = (BigEndian.value (xorBytes a b)).size := by
  have := logdistLz_add_size a b h
  unfold logdist
  omega

/-! ### The subnet key of an address -/

/-- The address `key` reads: the four-byte form of an IPv4 address, else the address. -/
def canonicalIP (ip : Bytes) : Bytes := (To4 ip).getD ip

/-- The first `k` bits of an address, as a number. -/
def topBits (k : Nat) (ip : Bytes) : Nat := BigEndian.value ip / 2 ^ (8 * ip.length - k)

/-- What `key` keeps of an address after the family byte: the whole bytes of the prefix, and
the masked byte that holds its last bits, unless the prefix ends on a byte boundary. -/
def keyPrefix (bits : Nat) (ip : Bytes) : Bytes :=
  let nb := bits / 8
  let mask : UInt8 := ~~~(0xFF >>> (bits % 8).toUInt8)
  ip.take nb ++
    match ip[nb]? with
    | some b => if mask ≠ 0 then [b &&& mask] else []
    | none => []

theorem key_eq (s : DistinctNetSet) (ip : Bytes) :
    s.key ip = (if (To4 ip).isSome then 52 else 54) ::
      keyPrefix (min s.Subnet ((canonicalIP ip).length * 8)) (canonicalIP ip) := by
  unfold DistinctNetSet.key keyPrefix canonicalIP
  cases To4 ip <;> dsimp only <;> split <;> (try split) <;> simp_all

theorem length_of_To4 {ip a : Bytes} (h : To4 ip = some a) : a.length = 4 := by
  unfold To4 at h
  split at h
  · rename_i hlen
    cases h
    exact hlen
  · split at h
    · rename_i hlen
      cases h
      simp [hlen.1]
    · cases h

set_option maxRecDepth 2000 in
/-- The masked byte keeps the top `r` bits. -/
theorem toNat_and_mask {r : Nat} (hr : r < 8) (b : UInt8) :
    (b &&& ~~~(0xFF >>> r.toUInt8)).toNat = b.toNat / 2 ^ (8 - r) * 2 ^ (8 - r) := by
  have h : ∀ r < 8, ∀ n < 256,
      ((UInt8.ofNat n) &&& ~~~((0xFF : UInt8) >>> r.toUInt8)).toNat = n / 2 ^ (8 - r) * 2 ^ (8 - r) := by
    decide
  simpa using h r hr b.toNat b.toNat_lt

theorem mask_ne_zero_iff {r : Nat} (hr : r < 8) : (~~~(0xFF >>> r.toUInt8) : UInt8) ≠ 0 ↔ r ≠ 0 := by
  have h : ∀ r < 8, (~~~((0xFF : UInt8) >>> r.toUInt8) ≠ 0 ↔ r ≠ 0) := by decide
  exact h r hr

/-- Two addresses of one length give one `keyPrefix` exactly when their first `bits` bits
agree. -/
theorem keyPrefix_eq_iff {xs ys : Bytes} (hlen : xs.length = ys.length) {bits : Nat}
    (hbits : bits ≤ 8 * xs.length) :
    keyPrefix bits xs = keyPrefix bits ys ↔ topBits bits xs = topBits bits ys := by
  have hr : bits % 8 < 8 := Nat.mod_lt _ (by decide)
  unfold keyPrefix topBits
  dsimp only
  by_cases hnb : bits / 8 < xs.length
  · -- the prefix ends inside byte `bits / 8`
    obtain ⟨bx, rx, hx⟩ : ∃ bx rx, xs.drop (bits / 8) = bx :: rx :=
      List.exists_cons_of_ne_nil (by simp; omega)
    obtain ⟨by', ry, hy⟩ : ∃ by' ry, ys.drop (bits / 8) = by' :: ry :=
      List.exists_cons_of_ne_nil (by simp; omega)
    have hxget : xs[bits / 8]? = some bx := by rw [← List.head?_drop, hx]; rfl
    have hyget : ys[bits / 8]? = some by' := by rw [← List.head?_drop, hy]; rfl
    have hrx : rx.length + 1 = xs.length - bits / 8 := by
      have := congrArg List.length hx
      simp at this
      omega
    have hry : ry.length + 1 = xs.length - bits / 8 := by
      have := congrArg List.length hy
      simp at this
      omega
    have hexp : 8 * xs.length - bits = 8 * (rx.length + 1) - bits % 8 := by omega
    have hexp' : 8 * ys.length - bits = 8 * (ry.length + 1) - bits % 8 := by omega
    rw [hxget, hyget]
    dsimp only
    rw [hexp, hexp', BigEndian.value_div_two_pow hx (by omega),
      BigEndian.value_div_two_pow hy (by omega)]
    -- the whole bytes and the top bits of the last byte, on both sides
    have htake : (xs.take (bits / 8)).length = (ys.take (bits / 8)).length := by simp [hlen]
    have hcx : bx.toNat / 2 ^ (8 - bits % 8) < 2 ^ (bits % 8) := by
      have := bx.toNat_lt
      rw [Nat.div_lt_iff_lt_mul (Nat.two_pow_pos _), ← Nat.pow_add,
        show bits % 8 + (8 - bits % 8) = 8 by omega]
      exact this
    have hcy : by'.toNat / 2 ^ (8 - bits % 8) < 2 ^ (bits % 8) := by
      have := by'.toNat_lt
      rw [Nat.div_lt_iff_lt_mul (Nat.two_pow_pos _), ← Nat.pow_add,
        show bits % 8 + (8 - bits % 8) = 8 by omega]
      exact this
    have hbyte : (if (~~~(0xFF >>> (bits % 8).toUInt8) : UInt8) ≠ 0 then [bx &&& ~~~(0xFF >>> (bits % 8).toUInt8)] else []) =
        (if (~~~(0xFF >>> (bits % 8).toUInt8) : UInt8) ≠ 0 then [by' &&& ~~~(0xFF >>> (bits % 8).toUInt8)] else []) ↔
        bx.toNat / 2 ^ (8 - bits % 8) = by'.toNat / 2 ^ (8 - bits % 8) := by
      by_cases hz : bits % 8 = 0
      · have hmask : ¬ (~~~(0xFF >>> (bits % 8).toUInt8) : UInt8) ≠ 0 := by
          rw [mask_ne_zero_iff hr]; omega
        rw [if_neg hmask, if_neg hmask, hz]
        have := bx.toNat_lt
        have := by'.toNat_lt
        simp only [Nat.sub_zero, true_iff]
        rw [Nat.div_eq_of_lt (by omega), Nat.div_eq_of_lt (by omega)]
      · have hmask : (~~~(0xFF >>> (bits % 8).toUInt8) : UInt8) ≠ 0 := (mask_ne_zero_iff hr).mpr hz
        rw [if_pos hmask, if_pos hmask, List.singleton_inj, ← UInt8.toNat_inj,
          toNat_and_mask hr, toNat_and_mask hr]
        exact Nat.mul_left_inj (Nat.two_pow_pos _).ne'
    constructor
    · intro h
      obtain ⟨ht, hb⟩ := List.append_inj h htake
      rw [ht, hbyte.mp hb]
    · intro h
      -- split the sum at `2 ^ (bits % 8)`
      have hq := congrArg (· / 2 ^ (bits % 8)) h
      have hm := congrArg (· % 2 ^ (bits % 8)) h
      simp only [Nat.add_comm _ (bx.toNat / _), Nat.add_comm _ (by'.toNat / _),
        Nat.add_mul_div_right _ _ (Nat.two_pow_pos _), Nat.div_eq_of_lt hcx, Nat.div_eq_of_lt hcy,
        Nat.zero_add, Nat.add_mul_mod_self_right, Nat.mod_eq_of_lt hcx, Nat.mod_eq_of_lt hcy] at hq hm
      have ht : xs.take (bits / 8) = ys.take (bits / 8) := BigEndian.eq_of_value_eq htake hq
      rw [ht, hbyte.mpr hm]
  · -- the prefix is the whole address
    have hbits8 : bits = 8 * xs.length := by omega
    have hxnone : xs[bits / 8]? = none := List.getElem?_eq_none (by omega)
    have hynone : ys[bits / 8]? = none := List.getElem?_eq_none (by omega)
    rw [hxnone, hynone, List.take_of_length_le (by omega), List.take_of_length_le (by omega)]
    simp only [List.append_nil, hbits8, ← hlen, Nat.sub_self, Nat.pow_zero, Nat.div_one]
    exact ⟨fun h => h ▸ rfl, BigEndian.eq_of_value_eq hlen⟩

/-- `DistinctNetSet.key`: two addresses (of four or sixteen bytes) share a key exactly when
they are of one family and agree on the first `Subnet` bits, or on all of them where the
address is shorter. -/
theorem key_eq_iff (s : DistinctNetSet) {ip1 ip2 : Bytes} (h1 : ip1.length = 4 ∨ ip1.length = 16)
    (h2 : ip2.length = 4 ∨ ip2.length = 16) :
    s.key ip1 = s.key ip2 ↔ (To4 ip1).isSome = (To4 ip2).isSome ∧
      topBits (min s.Subnet (8 * (canonicalIP ip1).length)) (canonicalIP ip1) =
        topBits (min s.Subnet (8 * (canonicalIP ip1).length)) (canonicalIP ip2) := by
  -- the family fixes the length: four bytes for IPv4, sixteen for the rest
  have hlen : ∀ ip : Bytes, (ip.length = 4 ∨ ip.length = 16) →
      (canonicalIP ip).length = if (To4 ip).isSome then 4 else 16 := by
    intro ip hip
    unfold canonicalIP
    cases h : To4 ip with
    | some a => simpa using length_of_To4 h
    | none =>
      have : ip.length ≠ 4 := fun h4 => by simp [To4, h4] at h
      simp only [Option.getD_none, Option.isSome_none, Bool.false_eq_true, if_false]
      omega
  have hfam : ((if (To4 ip1).isSome then (52 : UInt8) else 54) = if (To4 ip2).isSome then 52 else 54) ↔
      (To4 ip1).isSome = (To4 ip2).isSome := by
    cases (To4 ip1).isSome <;> cases (To4 ip2).isSome <;> decide
  rw [key_eq, key_eq, List.cons.injEq, hfam]
  by_cases hf : (To4 ip1).isSome = (To4 ip2).isSome
  · -- one family: one length, and one prefix length on both sides
    have hl : (canonicalIP ip1).length = (canonicalIP ip2).length := by
      rw [hlen ip1 h1, hlen ip2 h2, hf]
    have hk : min s.Subnet ((canonicalIP ip1).length * 8) = min s.Subnet (8 * (canonicalIP ip1).length) := by
      rw [Nat.mul_comm]
    rw [← hl, hk, keyPrefix_eq_iff hl (by omega)]
  · simp [hf]

/-- The XOR metric helpers agree with big-number arithmetic: `distcmp` on 32-byte hashes is
the sign of the difference of the two distances, `logdist` the bit length of the XOR, and two
addresses share a subnet key exactly when they are of one family and agree on its first bits. -/
theorem xor_metric_helpers :
    (∀ t a b : Bytes, t.length = 32 → a.length = 32 → b.length = 32 →
      distcmp t a b = Int.sign ((xorDist t a : Int) - xorDist t b)) ∧
    (∀ a b : Bytes, a.length = 32 → b.length = 32 →
      logdist a b = (BigEndian.value (xorBytes a b)).size) ∧
    ∀ (s : DistinctNetSet) (ip1 ip2 : Bytes), (ip1.length = 4 ∨ ip1.length = 16) →
      (ip2.length = 4 ∨ ip2.length = 16) →
      (s.key ip1 = s.key ip2 ↔ (To4 ip1).isSome = (To4 ip2).isSome ∧
        topBits (min s.Subnet (8 * (canonicalIP ip1).length)) (canonicalIP ip1) =
          topBits (min s.Subnet (8 * (canonicalIP ip1).length)) (canonicalIP ip2)) := by
  refine ⟨fun t a b ht ha hb => ?_, fun a b ha hb => logdist_eq_size (ha.trans hb.symm),
    fun s _ _ h1 h2 => key_eq_iff s h1 h2⟩
  exact distcmp_eq_sign t a b (ha.trans ht.symm) (hb.trans ht.symm)

/-- `distcmp` at two 32-byte hashes, and two addresses of one `/24` that share a key. -/
theorem xor_metric_helpers_subnet :
    distcmp (List.replicate 32 0) (List.replicate 32 1) (List.replicate 32 0) =
        Int.sign ((xorDist (List.replicate 32 0) (List.replicate 32 1) : Int) -
          xorDist (List.replicate 32 0) (List.replicate 32 0)) ∧
      DistinctNetSet.key ⟨24, 2, fun _ => 0⟩ [10, 0, 0, 1] =
        DistinctNetSet.key ⟨24, 2, fun _ => 0⟩ [10, 0, 0, 2] :=
  ⟨xor_metric_helpers.1 _ _ _ (by simp) (by simp) (by simp),
    (xor_metric_helpers.2.2 _ [10, 0, 0, 1] [10, 0, 0, 2] (by simp) (by simp)).mpr
      ⟨rfl, by decide⟩⟩

/-! ### The closest set -/

/-- `closest`: the nodes nearest `Target` seen so far, nearest first, in the `bucketSize` slots
of `Nodes`; `none` is a nil slot. -/
structure closest where
  Nodes : List (Option Node)
  Target : Bytes

namespace closest

/-- `closest{Target: target}`: every slot nil. -/
def empty (target : Bytes) : closest := ⟨List.replicate bucketSize none, target⟩

/-- The nodes before the first nil slot. -/
def nonNil : List (Option Node) → List Node
  | some n :: rest => n :: nonNil rest
  | _ => []

/-- `Slice`: the nodes up to the first nil slot. -/
def Slice (c : closest) : List Node := nonNil c.Nodes

/-- The test `Add` searches with: slot `i` is nil, or holds a node no nearer the target than
`entry`. -/
def atOrBeyond (c : closest) (entry : Node) (i : Nat) : Bool :=
  match c.Nodes[i]? with
  | some (some other) => decide (distcmp c.Target other.sha entry.sha ≥ 0)
  | _ => true

/-- `Add`: find the first slot at or beyond `entry`; drop `entry` when there is none, or when
that slot already holds its id; else shift the slots from there one place on, dropping the
last, and put `entry` in it. -/
def Add (c : closest) (entry : Node) : closest :=
  let i := BinarySearch.Search (c.atOrBeyond entry) c.Nodes.length
  let inserted : closest :=
    { c with Nodes := (c.Nodes.take i ++ some entry :: c.Nodes.drop i).take c.Nodes.length }
  if i ≥ c.Nodes.length then c
  else
    match c.Nodes[i]? with
    | some (some n) => if n.ID = entry.ID then c else inserted
    | _ => inserted

/-! #### Slots holding a list of nodes -/

/-- The sixteen slots holding the nodes of `S` and then nil. -/
def slots (S : List Node) : List (Option Node) :=
  S.map some ++ List.replicate (bucketSize - S.length) none

theorem nonNil_map_some_append (S : List Node) (r : Nat) :
    nonNil (S.map some ++ List.replicate r none) = S := by
  induction S with
  | nil => cases r <;> rfl
  | cons x S ih => simp [nonNil, ih]

@[simp] theorem Slice_slots (S : List Node) (T : Bytes) : Slice ⟨slots S, T⟩ = S :=
  nonNil_map_some_append S _

theorem length_slots {S : List Node} (hS : S.length ≤ bucketSize) :
    (slots S).length = bucketSize := by
  simp [slots]
  omega

/-- Slot `k` holds node `k` of `S`, or nil past its end. -/
theorem getElem?_slots {S : List Node} (hS : S.length ≤ bucketSize) {k : Nat} (hk : k < bucketSize) :
    (slots S)[k]? = some S[k]? := by
  unfold slots
  by_cases hkS : k < S.length
  · rw [List.getElem?_append_left (by simpa using hkS), List.getElem?_map,
      List.getElem?_eq_getElem hkS]
    rfl
  · rw [List.getElem?_append_right (by simpa using Nat.le_of_not_lt hkS), List.getElem?_replicate,
      if_pos (by simp; omega), List.getElem?_eq_none (by omega)]

/-- On slots holding `S`, the test of `Add` reads `distcmp` of the nodes of `S`, and holds past
them. -/
theorem atOrBeyond_eq {c : closest} {S : List Node} (hc : c.Nodes = slots S)
    (hS : S.length ≤ bucketSize) (e : Node) :
    c.atOrBeyond e = BinarySearch.onList S fun x => decide (distcmp c.Target x.sha e.sha ≥ 0) := by
  funext k
  unfold atOrBeyond BinarySearch.onList
  rw [hc]
  by_cases hk : k < bucketSize
  · rw [getElem?_slots hS hk]
    cases S[k]? <;> rfl
  · rw [List.getElem?_eq_none (by rw [length_slots hS]; omega),
      List.getElem?_eq_none (by omega)]
    rfl

/-- The shift of `Add` on slots: `entry` goes in at `i`, and the slots keep their number. -/
theorem insert_slots {S : List Node} (hS : S.length ≤ bucketSize) {i : Nat} (hi : i ≤ S.length)
    (e : Node) :
    ((slots S).take i ++ some e :: (slots S).drop i).take (slots S).length =
      slots ((S.take i ++ e :: S.drop i).take bucketSize) := by
  have hmap : i ≤ (S.map some).length := by simpa using hi
  rw [length_slots hS]
  unfold slots
  rw [List.take_append_of_le_length hmap, List.drop_append_of_le_length hmap, ← List.map_take,
    ← List.map_drop, ← List.cons_append, ← List.append_assoc, ← List.map_cons, ← List.map_append,
    List.take_append, List.map_take, List.take_replicate]
  congr 2
  simp
  omega

/-- What `Add` does on slots holding `S`, along which the test stays true once it holds: the
search splits `S` into the nodes nearer than `entry` and the rest, and `Add` keeps the set when
sixteen nodes are nearer or the first of the rest has `entry`'s id, and else puts `entry`
between the two parts and keeps the first sixteen. -/
theorem Add_cases {c : closest} {S : List Node} (hc : c.Nodes = slots S)
    (hS : S.length ≤ bucketSize) {e : Node}
    (hmono : S.Pairwise fun x y =>
      distcmp c.Target x.sha e.sha ≥ 0 → distcmp c.Target y.sha e.sha ≥ 0) :
    ∃ i ≤ S.length, (∀ x ∈ S.take i, distcmp c.Target x.sha e.sha < 0) ∧
      (∀ x ∈ S.drop i, distcmp c.Target x.sha e.sha ≥ 0) ∧
      ((c.Add e = c ∧ (i = bucketSize ∨ ∃ n ∈ (S.drop i).head?, n.ID = e.ID)) ∨
        (c.Add e = ⟨slots ((S.take i ++ e :: S.drop i).take bucketSize), c.Target⟩ ∧
          i < bucketSize ∧ ∀ n ∈ (S.drop i).head?, n.ID ≠ e.ID)) := by
  have hmono' : S.Pairwise fun x y => decide (distcmp c.Target x.sha e.sha ≥ 0) = true →
      decide (distcmp c.Target y.sha e.sha ≥ 0) = true := by simpa using hmono
  have hlen : c.Nodes.length = bucketSize := by rw [hc, length_slots hS]
  have hsearch : BinarySearch.Search (c.atOrBeyond e) c.Nodes.length =
      BinarySearch.Search (BinarySearch.onList S fun x => decide (distcmp c.Target x.sha e.sha ≥ 0))
        c.Nodes.length := by
    rw [atOrBeyond_eq hc hS]
  obtain ⟨hi, hnear, hfar⟩ := BinarySearch.Search_onList hmono' (n := c.Nodes.length) (by omega)
  rw [← hsearch] at hi hnear hfar
  refine ⟨_, hi, fun x hx => by simpa using hnear x hx, fun x hx => by simpa using hfar x hx, ?_⟩
  unfold Add
  generalize BinarySearch.Search (c.atOrBeyond e) c.Nodes.length = i at hi ⊢
  dsimp only
  by_cases hge : i ≥ c.Nodes.length
  · exact .inl ⟨if_pos hge, .inl (by omega)⟩
  · rw [if_neg hge]
    have hslot : c.Nodes[i]? = some (S.drop i).head? := by
      rw [hc, getElem?_slots hS (by omega), List.head?_drop]
    have hins : ({ c with Nodes := (c.Nodes.take i ++ some e :: c.Nodes.drop i).take c.Nodes.length } :
        closest) = ⟨slots ((S.take i ++ e :: S.drop i).take bucketSize), c.Target⟩ := by
      rw [hc, insert_slots hS hi]
    rw [hslot, hins]
    cases hd : (S.drop i).head? with
    | none => exact .inr ⟨rfl, by omega, by simp⟩
    | some n =>
      dsimp only
      by_cases hid : n.ID = e.ID
      · exact .inl ⟨if_pos hid, .inr ⟨n, rfl, hid⟩⟩
      · exact .inr ⟨if_neg hid, by omega, by simpa using hid⟩

/-- `entry` no farther than every node of a set that is not full, with another id than the
first: `Add` puts it first. -/
theorem Add_front {c : closest} {S : List Node} (hc : c.Nodes = slots S) (hS : S.length < bucketSize)
    {e : Node} (hall : ∀ x ∈ S, distcmp c.Target x.sha e.sha ≥ 0) (hid : ∀ n ∈ S.head?, n.ID ≠ e.ID) :
    c.Add e = ⟨slots (e :: S), c.Target⟩ := by
  obtain ⟨i, hi, hnear, -, hcases⟩ :=
    Add_cases hc hS.le (List.pairwise_of_forall_mem_list fun _ _ y hy _ => hall y hy)
  -- nothing is nearer than `entry`, so the search stops at the first slot
  have hi0 : i = 0 := by
    cases S with
    | nil => simpa using hi
    | cons x rest =>
      by_contra hne
      have hx : x ∈ (x :: rest).take i := by
        rw [show i = (i - 1) + 1 by omega, List.take_succ_cons]
        exact List.mem_cons_self
      have := hnear x hx
      have := hall x List.mem_cons_self
      omega
  subst hi0
  rcases hcases with ⟨-, hi16 | ⟨n, hn, hnid⟩⟩ | ⟨hAdd, -⟩
  · simp [bucketSize] at hi16
  · exact absurd hnid (hid n (by simpa using hn))
  · rw [hAdd, List.take_zero, List.drop_zero, List.nil_append,
      List.take_of_length_le (by simp; omega)]

@[simp] theorem Target_Add (c : closest) (e : Node) : (c.Add e).Target = c.Target := by
  unfold Add
  dsimp only
  split
  · rfl
  · split
    · split <;> rfl
    · rfl

@[simp] theorem Target_foldl (nodes : List Node) (c : closest) :
    (nodes.foldl Add c).Target = c.Target := by
  induction nodes generalizing c with
  | nil => rfl
  | cons e nodes ih => simp [ih]

/-! #### The nearest nodes -/

/-- What a run assumes of the target and the nodes added: hashes of 32 bytes, one hash to an
id and one id to a hash. -/
structure Hashed (T : Bytes) (added : List Node) : Prop where
  length_target : T.length = 32
  length_sha : ∀ x ∈ added, x.sha.length = 32
  id_eq_iff : ∀ x ∈ added, ∀ y ∈ added, x.ID = y.ID ↔ x.sha = y.sha

section Nearest

variable {T : Bytes} {added : List Node} {c : closest} {e x y : Node}

theorem Hashed.mono {l : List Node} (h : Hashed T added) (hsub : l ⊆ added) : Hashed T l :=
  ⟨h.length_target, fun x hx => h.length_sha x (hsub hx),
    fun x hx y hy => h.id_eq_iff x (hsub hx) y (hsub hy)⟩

/-- Two added nodes are at one distance from the target exactly when they have one id. -/
theorem Hashed.dist_eq_iff (h : Hashed T added) (hx : x ∈ added) (hy : y ∈ added) :
    xorDist T x.sha = xorDist T y.sha ↔ x.ID = y.ID := by
  rw [h.id_eq_iff x hx y hy]
  constructor
  · exact eq_of_xorDist_eq (by rw [h.length_sha x hx, h.length_target])
      (by rw [h.length_sha y hy, h.length_target])
  · intro hsha
    rw [hsha]

/-- The test of `Add` on added nodes, as distances. -/
theorem Hashed.distcmp_nonneg_iff (h : Hashed T added) (hx : x ∈ added) (he : e ∈ added) :
    distcmp T x.sha e.sha ≥ 0 ↔ xorDist T e.sha ≤ xorDist T x.sha :=
  Discover.distcmp_nonneg_iff (by rw [h.length_sha x hx, h.length_target])
    (by rw [h.length_sha e he, h.length_target])

/-- What a `closest` reached from `empty` keeps, for the nodes `added` to it so far: its slots
hold its slice, nearest first, of added nodes, and an added node left out is farther than all
of a full slice. -/
structure Inv (added : List Node) (c : closest) : Prop where
  shape : c.Nodes = slots c.Slice
  length_le : c.Slice.length ≤ bucketSize
  sorted : c.Slice.Pairwise fun x y => xorDist c.Target x.sha < xorDist c.Target y.sha
  sub : ∀ x ∈ c.Slice, x ∈ added
  nearest : ∀ y ∈ added, y.ID ∉ c.Slice.map Node.ID →
    c.Slice.length = bucketSize ∧ ∀ x ∈ c.Slice, xorDist c.Target x.sha < xorDist c.Target y.sha

theorem Inv_empty (T : Bytes) : Inv [] (empty T) := by
  have hempty : empty T = ⟨slots [], T⟩ := rfl
  rw [hempty]
  exact ⟨by rw [Slice_slots], by simp [bucketSize], by simp, by simp, by simp⟩

theorem Inv.congr {l : List Node} (inv : Inv added c) (hmem : ∀ x, x ∈ added ↔ x ∈ l) : Inv l c :=
  ⟨inv.shape, inv.length_le, inv.sorted, fun x hx => (hmem x).mp (inv.sub x hx),
    fun y hy => inv.nearest y ((hmem y).mpr hy)⟩

/-- A set that `Add` leaves as it is keeps the invariant with `entry` added, when `entry`'s id is
in it or a full set is nearer. -/
theorem Inv.cons_of_keep (inv : Inv added c)
    (he : e.ID ∉ c.Slice.map Node.ID → c.Slice.length = bucketSize ∧
      ∀ x ∈ c.Slice, xorDist c.Target x.sha < xorDist c.Target e.sha) :
    Inv (e :: added) c where
  shape := inv.shape
  length_le := inv.length_le
  sorted := inv.sorted
  sub x hx := List.mem_cons_of_mem e (inv.sub x hx)
  nearest y hy hyS := by
    rcases List.mem_cons.mp hy with rfl | hy
    · exact he hyS
    · exact inv.nearest y hy hyS

/-- The invariant after `entry` goes in at `i`, between the nearer nodes and the farther ones,
and the first sixteen are kept. -/
theorem Inv.insert (inv : Inv added c) (h : Hashed c.Target (e :: added)) {i : Nat}
    (hi : i ≤ c.Slice.length) (hi16 : i < bucketSize)
    (hnear : ∀ x ∈ c.Slice.take i, xorDist c.Target x.sha < xorDist c.Target e.sha)
    (hfar : ∀ x ∈ c.Slice.drop i, xorDist c.Target e.sha < xorDist c.Target x.sha) :
    Inv (e :: added) ⟨slots ((c.Slice.take i ++ e :: c.Slice.drop i).take bucketSize), c.Target⟩ := by
  -- `S'` is the slice with `entry` in; `Add` keeps its first sixteen
  generalize hS' : c.Slice.take i ++ e :: c.Slice.drop i = S'
  have hsorted : S'.Pairwise fun x y => xorDist c.Target x.sha < xorDist c.Target y.sha :=
    hS' ▸ BinarySearch.pairwise_insert inv.sorted hnear hfar
  have hlen : S'.length = c.Slice.length + 1 := hS' ▸ BinarySearch.length_insert e
  have hsub : c.Slice ⊆ S' := by
    rw [← hS']
    conv_lhs => rw [← List.take_append_drop i c.Slice]
    exact ((List.sublist_cons_self e _).append_left _).subset
  have hmem : ∀ x ∈ S', x = e ∨ x ∈ c.Slice := by
    intro x hx
    rw [← hS'] at hx
    rcases List.mem_append.mp hx with hx | hx
    · exact .inr (List.mem_of_mem_take hx)
    · rcases List.mem_cons.mp hx with rfl | hx
      · exact .inl rfl
      · exact .inr (List.mem_of_mem_drop hx)
  have heS' : e ∈ S'.take bucketSize := hS' ▸ BinarySearch.mem_take_insert hi hi16 e
  refine ⟨by rw [Slice_slots], by simp, by simpa using hsorted.sublist (List.take_sublist _ _),
    fun x hx => ?_, fun y hy hyS => ?_⟩
  · simp only [Slice_slots] at hx
    rcases hmem x (List.mem_of_mem_take hx) with rfl | hx
    · exact List.mem_cons_self
    · exact List.mem_cons_of_mem _ (inv.sub x hx)
  · simp only [Slice_slots] at hyS ⊢
    by_cases hfull : c.Slice.length < bucketSize
    · -- no node drops out, so `y` was left out before, of a set that was not full
      exfalso
      rw [List.take_of_length_le (by omega)] at hyS heS'
      rcases List.mem_cons.mp hy with rfl | hy
      · exact hyS (List.mem_map_of_mem heS')
      · exact absurd (inv.nearest y hy fun hm => hyS (List.map_subset _ hsub hm)).1 (by omega)
    · have h16 : c.Slice.length = bucketSize := by have := inv.length_le; omega
      refine ⟨by simp; omega, fun x hx => ?_⟩
      rcases List.mem_cons.mp hy with rfl | hy
      · exact absurd (List.mem_map_of_mem heS') hyS
      · by_cases hyin : y.ID ∈ c.Slice.map Node.ID
        · -- `y`'s id was in: its node is the last of `S'`, the one that drops out
          obtain ⟨z, hz, hzy⟩ := List.mem_map.mp hyin
          obtain ⟨w, hw⟩ : ∃ w, S'.drop bucketSize = [w] :=
            List.length_eq_one_iff.mp (by simp; omega)
          have hsplit : S' = S'.take bucketSize ++ [w] := by rw [← hw, List.take_append_drop]
          have hzw : z = w := by
            have hz' : z ∈ S'.take bucketSize ++ [w] := hsplit ▸ hsub hz
            rcases List.mem_append.mp hz' with hz' | hz'
            · exact absurd (List.mem_map.mpr ⟨z, hz', hzy⟩) hyS
            · exact List.mem_singleton.mp hz'
          have hxw : xorDist c.Target x.sha < xorDist c.Target w.sha :=
            (List.pairwise_append.mp (hsplit ▸ hsorted)).2.2 x hx w (List.mem_singleton_self w)
          have hzy' : xorDist c.Target z.sha = xorDist c.Target y.sha :=
            (h.dist_eq_iff (List.mem_cons_of_mem e (inv.sub z hz)) (List.mem_cons_of_mem e hy)).mpr hzy
          rw [← hzy', hzw]
          exact hxw
        · -- `y` was farther than the whole full set, so than the node at `i`, so than `entry`
          obtain ⟨-, hall⟩ := inv.nearest y hy hyin
          obtain ⟨n, rest, hn⟩ := List.exists_cons_of_ne_nil (show c.Slice.drop i ≠ [] by simp; omega)
          have hnd : n ∈ c.Slice.drop i := hn ▸ List.mem_cons_self
          have hey : xorDist c.Target e.sha < xorDist c.Target y.sha := by
            have := hfar n hnd
            have := hall n (List.mem_of_mem_drop hnd)
            omega
          rcases hmem x (List.mem_of_mem_take hx) with rfl | hx
          · exact hey
          · exact hall x hx

/-- `Add` keeps the invariant, with `entry` added. -/
theorem Inv.Add (inv : Inv added c) (h : Hashed c.Target (e :: added)) :
    Inv (e :: added) (c.Add e) := by
  have hadd : ∀ x ∈ c.Slice, x ∈ e :: added := fun x hx => List.mem_cons_of_mem e (inv.sub x hx)
  have he : e ∈ e :: added := List.mem_cons_self
  -- the test of `Add` read as distances: it stays true along the sorted slice
  have hbeyond : ∀ x ∈ c.Slice, distcmp c.Target x.sha e.sha ≥ 0 ↔
      xorDist c.Target e.sha ≤ xorDist c.Target x.sha :=
    fun x hx => h.distcmp_nonneg_iff (hadd x hx) he
  have hmono : c.Slice.Pairwise fun x y =>
      distcmp c.Target x.sha e.sha ≥ 0 → distcmp c.Target y.sha e.sha ≥ 0 :=
    inv.sorted.imp_of_mem fun hx hy hxy hbx => by
      have := (hbeyond _ hx).mp hbx
      exact (hbeyond _ hy).mpr (by omega)
  have hnearer : ∀ x ∈ c.Slice, distcmp c.Target x.sha e.sha < 0 →
      xorDist c.Target x.sha < xorDist c.Target e.sha := fun x hx hlt => by
    have := mt (hbeyond x hx).mpr
    omega
  obtain ⟨i, hi, hnear, hfar, ⟨hAdd, hwhy⟩ | ⟨hAdd, hi16, hid⟩⟩ :=
    Add_cases inv.shape inv.length_le hmono
  · -- `Add` keeps the set: sixteen nodes are nearer, or `entry`'s id is at `i`
    rw [hAdd]
    refine inv.cons_of_keep fun hnotin => ?_
    rcases hwhy with hi16 | ⟨n, hn, hnid⟩
    · have hlen : c.Slice.length = bucketSize := by have := inv.length_le; omega
      refine ⟨hlen, fun x hx => hnearer x hx (hnear x ?_)⟩
      rwa [List.take_of_length_le (by omega)]
    · exact absurd (List.mem_map.mpr ⟨n, List.mem_of_mem_drop (List.mem_of_mem_head? hn), hnid⟩)
        hnotin
  · -- `entry` goes in at `i`, nearer than the node there, which has another id
    rw [hAdd]
    refine inv.insert h hi hi16 (fun x hx => hnearer x (List.mem_of_mem_take hx) (hnear x hx)) ?_
    intro x hx
    obtain ⟨n, rest, hn⟩ := List.exists_cons_of_ne_nil (List.ne_nil_of_mem hx)
    have hnd : n ∈ c.Slice.drop i := hn ▸ List.mem_cons_self
    have hnS : n ∈ c.Slice := List.mem_of_mem_drop hnd
    have hen : xorDist c.Target e.sha < xorDist c.Target n.sha := by
      have hle := (hbeyond n hnS).mp (hfar n hnd)
      have hne : xorDist c.Target n.sha ≠ xorDist c.Target e.sha := fun heq =>
        hid n (by rw [hn]; rfl) ((h.dist_eq_iff (hadd n hnS) he).mp heq)
      omega
    rw [hn] at hx
    rcases List.mem_cons.mp hx with rfl | hx
    · exact hen
    · have hpw : (n :: rest).Pairwise fun x y => xorDist c.Target x.sha < xorDist c.Target y.sha :=
        hn ▸ inv.sorted.sublist (List.drop_sublist i c.Slice)
      exact Nat.lt_trans hen (List.rel_of_pairwise_cons hpw hx)

/-- A run of `Add` keeps the invariant, over the nodes it adds. -/
theorem Inv.foldl : ∀ (nodes : List Node) {added : List Node} {c : closest}, Inv added c →
    Hashed c.Target (nodes.reverse ++ added) →
      Inv (nodes.reverse ++ added) (nodes.foldl closest.Add c)
  | [], _, _, inv, _ => by simpa using inv
  | e :: nodes, added, c, inv, h => by
    have h' : Hashed (c.Add e).Target (nodes.reverse ++ e :: added) := by
      rw [Target_Add]
      simpa using h
    have inv' := inv.Add (h.mono fun x hx => by simp at hx ⊢; tauto)
    simpa using Inv.foldl nodes inv' h'

/-- Nodes at distinct distances have distinct ids. -/
theorem Inv.nodup (inv : Inv added c) (h : Hashed c.Target added) :
    (c.Slice.map Node.ID).Nodup := by
  refine List.pairwise_map.mpr (inv.sorted.imp_of_mem fun hx hy hxy hid => ?_)
  have := (h.dist_eq_iff (inv.sub _ hx) (inv.sub _ hy)).mpr hid
  omega

/-- The slice has the nodes of sixteen added ids, or of all of them where there are fewer. -/
theorem Inv.length_eq (inv : Inv added c) (h : Hashed c.Target added) :
    c.Slice.length = min bucketSize (added.map Node.ID).dedup.length := by
  have hsub : (c.Slice.map Node.ID).Subperm (added.map Node.ID).dedup :=
    List.subperm_of_subset (inv.nodup h) fun d hd => by
      obtain ⟨x, hx, rfl⟩ := List.mem_map.mp hd
      exact List.mem_dedup.mpr (List.mem_map_of_mem (inv.sub x hx))
  have hle : c.Slice.length ≤ (added.map Node.ID).dedup.length := by simpa using hsub.length_le
  by_cases hfull : c.Slice.length = bucketSize
  · omega
  · -- a set not full holds every added id
    have hall : (added.map Node.ID).dedup.Subperm (c.Slice.map Node.ID) :=
      List.subperm_of_subset (List.nodup_dedup _) fun d hd => by
        obtain ⟨y, hy, rfl⟩ := List.mem_map.mp (List.mem_dedup.mp hd)
        by_contra hyS
        exact hfull (inv.nearest y hy hyS).1
    have hge : (added.map Node.ID).dedup.length ≤ c.Slice.length := by simpa using hall.length_le
    have := inv.length_le
    omega

end Nearest

end closest

/-- A hash of `n`-byte strings into `m`-byte strings, `m < n`, has two inputs that collide. -/
theorem exists_collision {f : Bytes → Bytes} {m n : Nat} (hmn : m < n)
    (hf : ∀ bs, (f bs).length = m) : ∃ a b : Bytes, a.length = n ∧ b.length = n ∧ a ≠ b ∧ f a = f b := by
  have hcard : (Finset.range (256 ^ m)).card < (Finset.range (256 ^ n)).card := by
    simp only [Finset.card_range]
    exact Nat.pow_lt_pow_right (by decide) hmn
  -- the pigeonholes: the values of the hashes of the `n`-byte encodings of `0, 1, …`
  have hmaps : Set.MapsTo (fun i => BigEndian.value (f (BigEndian.fixed n i)))
      (Finset.range (256 ^ n) : Set Nat) (Finset.range (256 ^ m) : Set Nat) := fun i _ => by
    simpa [hf] using BigEndian.value_lt (f (BigEndian.fixed n i))
  obtain ⟨i, hi, j, hj, hij, hval⟩ := Finset.exists_ne_map_eq_of_card_lt_of_maps_to hcard hmaps
  refine ⟨BigEndian.fixed n i, BigEndian.fixed n j, BigEndian.length_fixed n i,
    BigEndian.length_fixed n j, fun h => hij ?_, BigEndian.eq_of_value_eq (by simp [hf]) hval⟩
  have hv := congrArg BigEndian.value h
  rwa [BigEndian.value_fixed, BigEndian.value_fixed, Nat.mod_eq_of_lt (Finset.mem_range.mp hi),
    Nat.mod_eq_of_lt (Finset.mem_range.mp hj)] at hv

/-- Two nodes of one hash and two ids: adding the first, the second, then the first again puts
each in front in turn, and the first id is in the slice twice. -/
theorem foldl_Add_collision {a b : Node} (hsha : a.sha = b.sha) (hid : a.ID ≠ b.ID) (target : Bytes) :
    ([a, b, a].foldl closest.Add (closest.empty target)).Slice = [a, b, a] := by
  have hsame : ∀ x y : Node, x.sha = y.sha → distcmp target x.sha y.sha ≥ 0 := by
    intro x y hxy
    rw [hxy, distcmp_self]
  have h1 : (closest.empty target).Add a = ⟨closest.slots [a], target⟩ :=
    closest.Add_front rfl (by simp [bucketSize]) (by simp) (by simp)
  have h2 : closest.Add ⟨closest.slots [a], target⟩ b = ⟨closest.slots [b, a], target⟩ :=
    closest.Add_front rfl (by simp [bucketSize]) (by simpa using hsame a b hsha) (by simpa using hid)
  have h3 : closest.Add ⟨closest.slots [b, a], target⟩ a = ⟨closest.slots [a, b, a], target⟩ :=
    closest.Add_front rfl (by simp [bucketSize])
      (by simpa using ⟨hsame b a hsha.symm, hsame a a rfl⟩) (by simpa using Ne.symm hid)
  simp [h1, h2, h3]

/-- Whatever the hash of 32 bytes, two 64-byte ids share it, and adding the node of one, then
of the other, then the first again leaves the first id twice in the slice. -/
theorem closest_Add_collision_any_hash (env : Env) (target : Bytes) :
    ∃ a b : Node, a.ID.length = 64 ∧ b.ID.length = 64 ∧ a.sha = env.Keccak256 a.ID ∧
      b.sha = env.Keccak256 b.ID ∧
      ¬ (([a, b, a].foldl closest.Add (closest.empty target)).Slice.map Node.ID).Nodup := by
  obtain ⟨ida, idb, ha, hb, hab, hsha⟩ :=
    exists_collision (f := env.Keccak256) (by decide : 32 < 64) env.length_Keccak256
  refine ⟨⟨[], ida, env.Keccak256 ida⟩, ⟨[], idb, env.Keccak256 idb⟩, ha, hb, rfl, rfl, ?_⟩
  rw [foldl_Add_collision hsha hab]
  simp

end Discover
end Ethcore
