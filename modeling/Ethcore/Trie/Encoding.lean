import Ethcore.Rlp.Item

/-!
# Trie keys: `encoding.go`

Keys come in three encodings.  KEYBYTES is the key itself.  HEX has one byte per nibble
and an optional terminator `16` marking a key that ends in a value; nodes in memory use it.
COMPACT (the Yellow Paper's hex prefix) packs the nibbles two to a byte behind a flag
byte whose high nibble holds the terminator and parity bits; nodes on disk use it.

`compactToHex` reads `base[0]` of the expanded key, which is empty for the empty compact
key: it panics there, and returns an `Option` with `none` for the panic.

Results: `compactToHex` inverts `hexToCompact` on every well-formed hex key
(`compactToHex_hexToCompact`), and panics exactly on the empty key
(`compactToHex_eq_none_iff`); `hexToKeybytes` inverts `keybytesToHex`; and `hexToCompact`
inverts `compactToHex` only where the flag nibble is at most `3` and an even key's padding
nibble is zero (`hexToCompact_compactToHex`): `compactToHex` accepts every other flag byte
too, and maps several compact keys to one hex key.
-/

namespace Ethcore
namespace Trie

/-- A full node has seventeen slots: the sixteen nibbles and the value slot `16`.  Every
literal slot of `Fin 17` is built with this one instance. -/
instance instNeZeroSlots : NeZero (17 : Nat) := ⟨by decide⟩

/-- `hasTerm`: whether a hex key ends with the terminator `16`. -/
def hasTerm (s : Bytes) : Bool :=
  match s.getLast? with
  | some x => x == 16
  | none => false

/-- `keybytesToHex`: each byte as its high and low nibble, then the terminator. -/
def keybytesToHex (str : Bytes) : Bytes :=
  (str.flatMap fun b => [b / 16, b % 16]) ++ [16]

/-- `decodeNibbles`: nibbles, two to a byte, high nibble first.  Every caller passes an
even number of nibbles. -/
def decodeNibbles : Bytes → Bytes
  | n1 :: n2 :: rest => (n1 <<< 4 ||| n2) :: decodeNibbles rest
  | _ => []

/-- `hexToCompact`: the flag byte (terminator bit `0x20`, odd bit `0x10`, and for an odd
number of nibbles the first nibble), then the nibbles two to a byte. -/
def hexToCompact (hex : Bytes) : Bytes :=
  let terminator : UInt8 := if hasTerm hex then 1 else 0
  let hex := if hasTerm hex then hex.dropLast else hex
  -- for an odd length `hex[0]` exists
  if hex.length % 2 = 1 then
    (terminator <<< 5 ||| (1 : UInt8) <<< 4 ||| hex.headD 0) :: decodeNibbles hex.tail
  else (terminator <<< 5) :: decodeNibbles hex

/-- `compactToHex`: expand to nibbles, drop the keybytes terminator, restore the hex
terminator from the flag and drop the flag nibble (and the padding nibble of an even
key).  `none` is the panic of reading `base[0]` for the empty compact key. -/
def compactToHex (compact : Bytes) : Option Bytes :=
  let base := (keybytesToHex compact).dropLast
  match base with
  | [] => none
  | b0 :: _ =>
      -- apply terminator flag
      let base := if b0 ≥ 2 then base ++ [16] else base
      -- apply odd flag
      let chop := 2 - (b0 &&& 1)
      some (base.drop chop.toNat)

/-- `hexToKeybytes`: the key bytes of a hex key of even length; `none` is the panic on an
odd one. -/
def hexToKeybytes (hex : Bytes) : Option Bytes :=
  let hex := if hasTerm hex then hex.dropLast else hex
  if hex.length % 2 ≠ 0 then none else some (decodeNibbles hex)

/-- `prefixLen`: the length of the common prefix of `a` and `b`. -/
def prefixLen : Bytes → Bytes → Nat
  | x :: xs, y :: ys => if x = y then prefixLen xs ys + 1 else 0
  | _, _ => 0

/-! ### Round trip of the compact encoding -/

/-- Nibbles: every byte below `16`. -/
def Nibbles (ns : Bytes) : Prop := ∀ x ∈ ns, x < 16

instance (ns : Bytes) : Decidable (Nibbles ns) := List.decidableBAll _ ns

/-- A hex key: nibbles, then the terminator when `t`. -/
def withTerm (ns : Bytes) (t : Bool) : Bytes := ns ++ if t then [16] else []

@[simp] theorem keybytesToHex_nil : keybytesToHex [] = [16] := rfl

@[simp] theorem keybytesToHex_cons (b : UInt8) (str : Bytes) :
    keybytesToHex (b :: str) = b / 16 :: b % 16 :: keybytesToHex str := by
  simp [keybytesToHex]

theorem length_keybytesToHex (str : Bytes) : (keybytesToHex str).length = 2 * str.length + 1 := by
  induction str with
  | nil => rfl
  | cons b str ih => simp [ih]; omega

theorem hasTerm_withTerm {ns : Bytes} (hns : Nibbles ns) (t : Bool) : hasTerm (withTerm ns t) = t := by
  cases t with
  | true => simp [hasTerm, withTerm]
  | false =>
      simp only [hasTerm, withTerm, Bool.false_eq_true, if_false, List.append_nil]
      cases hl : ns.getLast? with
      | none => rfl
      | some x =>
          have hx := hns x (List.mem_of_getLast? hl)
          simp only [beq_eq_false_iff_ne, ne_eq]
          rintro rfl
          exact absurd hx (by decide)

/-- Two nibbles packed into a byte come back out of it. -/
theorem pack_nibbles : ∀ a b : Fin 16,
    (UInt8.ofNat a <<< 4 ||| UInt8.ofNat b) / 16 = UInt8.ofNat a ∧
      (UInt8.ofNat a <<< 4 ||| UInt8.ofNat b) % 16 = UInt8.ofNat b := by
  decide

theorem ofNat_toNat_fin {n : UInt8} (h : n < 16) :
    n = UInt8.ofNat (⟨n.toNat, by rw [UInt8.lt_iff_toNat_lt] at h; simpa using h⟩ : Fin 16) := by
  simp

/-- Expanding the bytes `decodeNibbles` packs gives the nibbles back. -/
theorem expand_decodeNibbles {ns : Bytes} (hns : Nibbles ns) (heven : ns.length % 2 = 0) :
    (decodeNibbles ns).flatMap (fun b => [b / 16, b % 16]) = ns := by
  induction ns using decodeNibbles.induct with
  | case1 n1 n2 rest ih =>
      have h1 := hns n1 (by simp)
      have h2 := hns n2 (by simp)
      have hp := pack_nibbles ⟨n1.toNat, by rw [UInt8.lt_iff_toNat_lt] at h1; simpa using h1⟩
        ⟨n2.toNat, by rw [UInt8.lt_iff_toNat_lt] at h2; simpa using h2⟩
      simp only [UInt8.ofNat_toNat] at hp
      simp only [decodeNibbles, List.flatMap_cons, hp, List.cons_append, List.nil_append,
        List.cons.injEq, true_and]
      exact ih (fun x hx => hns x (by simp [hx])) (by simp at heven; omega)
  | case2 ns hne =>
      rcases ns with _ | ⟨n, _ | ⟨n2, rest⟩⟩
      · rfl
      · simp at heven
      · exact absurd rfl (hne n n2 rest)

/-- The flag byte of an odd key: the terminator and odd bits, then the first nibble. -/
theorem flag_odd : ∀ (t : Bool) (a : Fin 16),
    ((if t then (1 : UInt8) else 0) <<< 5 ||| (1 : UInt8) <<< 4 ||| UInt8.ofNat a) / 16 =
        (if t then 3 else 1) ∧
      ((if t then (1 : UInt8) else 0) <<< 5 ||| (1 : UInt8) <<< 4 ||| UInt8.ofNat a) % 16 =
        UInt8.ofNat a := by
  decide

/-- The flag byte of an even key: the terminator bit and a zero nibble. -/
theorem flag_even : ∀ t : Bool,
    ((if t then (1 : UInt8) else 0) <<< 5) / 16 = (if t then 2 else 0) ∧
      ((if t then (1 : UInt8) else 0) <<< 5) % 16 = 0 := by
  decide

theorem dropLast_keybytesToHex (str : Bytes) :
    (keybytesToHex str).dropLast = str.flatMap fun b => [b / 16, b % 16] := by
  simp [keybytesToHex]

/-- `compactToHex` of a key with flag byte `f`: the flag's high nibble decides the
terminator and how many nibbles to chop. -/
theorem compactToHex_cons (f : UInt8) (rest : Bytes) :
    compactToHex (f :: rest) =
      some (((f / 16 :: f % 16 :: (rest.flatMap fun b => [b / 16, b % 16])) ++
          (if f / 16 ≥ 2 then [16] else [])).drop (2 - (f / 16 &&& 1)).toNat) := by
  have hbase : (keybytesToHex (f :: rest)).dropLast =
      f / 16 :: f % 16 :: (rest.flatMap fun b => [b / 16, b % 16]) := by
    rw [dropLast_keybytesToHex]
    simp
  simp only [compactToHex, hbase]
  split_ifs <;> simp

/-- `compactToHex` panics exactly on the empty key. -/
theorem compactToHex_eq_none_iff (compact : Bytes) : compactToHex compact = none ↔ compact = [] := by
  cases compact with
  | nil => simp [compactToHex]
  | cons f rest => simp [compactToHex_cons]

/-- `hexToCompact` of a hex key: the terminator flag comes from `t`, the parity from the
nibbles. -/
theorem hexToCompact_withTerm {ns : Bytes} (hns : Nibbles ns) (t : Bool) :
    hexToCompact (withTerm ns t) =
      if ns.length % 2 = 1 then
        ((if t then (1 : UInt8) else 0) <<< 5 ||| (1 : UInt8) <<< 4 ||| ns.headD 0) ::
          decodeNibbles ns.tail
      else ((if t then (1 : UInt8) else 0) <<< 5) :: decodeNibbles ns := by
  have hdrop : (if hasTerm (withTerm ns t) then (withTerm ns t).dropLast else withTerm ns t) = ns := by
    rw [hasTerm_withTerm hns]
    cases t <;> simp [withTerm]
  have hterm : (if hasTerm (withTerm ns t) then (1 : UInt8) else 0) = if t then 1 else 0 := by
    rw [hasTerm_withTerm hns]
  unfold hexToCompact
  simp only [hdrop, hterm]

/-- **The compact encoding round trip**: `compactToHex` gives back every hex key
`hexToCompact` encodes. -/
theorem compactToHex_hexToCompact {ns : Bytes} (hns : Nibbles ns) (t : Bool) :
    compactToHex (hexToCompact (withTerm ns t)) = some (withTerm ns t) := by
  rw [hexToCompact_withTerm hns]
  by_cases hodd : ns.length % 2 = 1
  · -- an odd key: the first nibble rides in the flag byte, only the flag nibble is chopped
    obtain ⟨n0, rest, rfl⟩ : ∃ n0 rest, ns = n0 :: rest := by
      cases ns with
      | nil => simp at hodd
      | cons n0 rest => exact ⟨n0, rest, rfl⟩
    have h0 := hns n0 (by simp)
    rw [UInt8.lt_iff_toNat_lt] at h0
    have hf := flag_odd t ⟨n0.toNat, by simpa using h0⟩
    simp only [UInt8.ofNat_toNat] at hf
    have hrest : Nibbles rest := fun x hx => hns x (by simp [hx])
    rw [if_pos hodd]
    simp only [List.headD_cons, List.tail_cons]
    rw [compactToHex_cons, hf.1, hf.2,
      expand_decodeNibbles hrest (by simp at hodd; omega)]
    cases t
    · simp [withTerm]
    · have hchop : (2 - ((3 : UInt8) &&& 1)).toNat = 1 := by decide
      simp [withTerm, hchop]
  · -- an even key: the flag byte's zero nibble is chopped with the flag nibble
    obtain ⟨hq, hr⟩ := flag_even t
    rw [if_neg hodd, compactToHex_cons, hq, hr, expand_decodeNibbles hns (by omega)]
    cases t
    · simp [withTerm]
    · have hchop : (2 - ((2 : UInt8) &&& 1)).toNat = 2 := by decide
      simp [withTerm, hchop]

/-! ### The other round trips -/

set_option maxRecDepth 1000 in
theorem nibbles_split (k : Bytes) : Nibbles (k.flatMap fun b => [b / 16, b % 16]) := by
  have hb (b : UInt8) : b / 16 < 16 ∧ b % 16 < 16 :=
    BigEndian.forall_byte (P := fun b => b / 16 < 16 ∧ b % 16 < 16) (by decide) b
  intro x hx
  obtain ⟨b, -, hx⟩ := List.mem_flatMap.mp hx
  rcases List.mem_pair.mp hx with rfl | rfl
  · exact (hb b).1
  · exact (hb b).2

theorem length_split (k : Bytes) : (k.flatMap fun b => [b / 16, b % 16]).length = 2 * k.length := by
  induction k with
  | nil => rfl
  | cons b k ih => simp [ih]; omega

set_option maxRecDepth 1000 in
/-- Packing the two nibbles of a byte gives the byte back. -/
theorem decodeNibbles_split (k : Bytes) : decodeNibbles (k.flatMap fun b => [b / 16, b % 16]) = k := by
  have hb (b : UInt8) : (b / 16) <<< 4 ||| b % 16 = b :=
    BigEndian.forall_byte (P := fun b => (b / 16) <<< 4 ||| b % 16 = b) (by decide) b
  induction k with
  | nil => rfl
  | cons b k ih => simp [decodeNibbles, hb, ih]

theorem hexToKeybytes_keybytesToHex (k : Bytes) : hexToKeybytes (keybytesToHex k) = some k := by
  have hterm : hasTerm (keybytesToHex k) = true := by simp [hasTerm, keybytesToHex]
  have hlen : (k.flatMap fun b => [b / 16, b % 16]).length % 2 = 0 := by
    rw [length_split]
    omega
  simp only [hexToKeybytes, hterm, if_true, dropLast_keybytesToHex, hlen, ne_eq,
    not_true_eq_false, if_false, decodeNibbles_split]

set_option maxRecDepth 1000 in
/-- How many nibbles `compactToHex` chops: the flag nibble, and the padding nibble of an even
key. -/
theorem chop_eq (b : UInt8) : (2 - (b / 16 &&& 1)).toNat = if b / 16 % 2 = 1 then 1 else 2 :=
  BigEndian.forall_byte (P := fun b => (2 - (b / 16 &&& 1)).toNat = if b / 16 % 2 = 1 then 1 else 2)
    (by decide) b

set_option maxRecDepth 1000 in
/-- The flag byte `hexToCompact` writes back is the one `compactToHex` read exactly for a flag
nibble of at most `3` whose low nibble, for an even key, is zero. -/
theorem flag_round_trip (b : UInt8) :
    (if b / 16 % 2 = 1 then
        ((if b / 16 ≥ 2 then (1 : UInt8) else 0) <<< 5 ||| (1 : UInt8) <<< 4 ||| b % 16) = b
      else ((if b / 16 ≥ 2 then (1 : UInt8) else 0) <<< 5) = b) ↔
      b / 16 ≤ 3 ∧ (b / 16 % 2 = 0 → b % 16 = 0) :=
  BigEndian.forall_byte (P := fun b =>
    (if b / 16 % 2 = 1 then
        ((if b / 16 ≥ 2 then (1 : UInt8) else 0) <<< 5 ||| (1 : UInt8) <<< 4 ||| b % 16) = b
      else ((if b / 16 ≥ 2 then (1 : UInt8) else 0) <<< 5) = b) ↔
      b / 16 ≤ 3 ∧ (b / 16 % 2 = 0 → b % 16 = 0)) (by decide) b

/-- `hexToCompact` takes back what `compactToHex` expands exactly when the flag byte is one
`hexToCompact` writes. -/
theorem hexToCompact_compactToHex (b : UInt8) (rest : Bytes) :
    (compactToHex (b :: rest)).map hexToCompact = some (b :: rest) ↔
      b / 16 ≤ 3 ∧ (b / 16 % 2 = 0 → b % 16 = 0) := by
  have hR := nibbles_split rest
  have hlen := length_split rest
  rw [compactToHex_cons, chop_eq, ← flag_round_trip]
  by_cases hodd : b / 16 % 2 = 1
  · -- an odd key keeps the low nibble of the flag byte as its first nibble
    have hl : Nibbles (b % 16 :: rest.flatMap fun x => [x / 16, x % 16]) := by
      intro x hx
      rcases List.mem_cons.mp hx with rfl | hx
      · exact (nibbles_split [b]) _ (by simp)
      · exact hR x hx
    have hdrop : ((b / 16 :: b % 16 :: rest.flatMap fun x => [x / 16, x % 16]) ++
        (if b / 16 ≥ 2 then [16] else [])).drop 1 =
        withTerm (b % 16 :: rest.flatMap fun x => [x / 16, x % 16]) (decide (b / 16 ≥ 2)) := by
      simp [withTerm]
    rw [if_pos hodd, hdrop, Option.map_some, hexToCompact_withTerm hl, if_pos (by simp)]
    simp [decodeNibbles_split, hodd]
  · -- an even key chops the flag nibble and the padding nibble
    have hdrop : ((b / 16 :: b % 16 :: rest.flatMap fun x => [x / 16, x % 16]) ++
        (if b / 16 ≥ 2 then [16] else [])).drop 2 =
        withTerm (rest.flatMap fun x => [x / 16, x % 16]) (decide (b / 16 ≥ 2)) := by
      simp [withTerm]
    rw [if_neg hodd, hdrop, Option.map_some, hexToCompact_withTerm hR, if_neg (by omega)]
    simp [decodeNibbles_split, hodd]

/-- The three key encodings: the compact encoding gives back every hex key, the hex encoding
every key, and `hexToCompact` inverts `compactToHex` on exactly the compact keys whose flag
byte `hexToCompact` could have written. -/
theorem key_encodings_round_trip :
    (∀ ns t, Nibbles ns → compactToHex (hexToCompact (withTerm ns t)) = some (withTerm ns t)) ∧
    (∀ k, hexToKeybytes (keybytesToHex k) = some k) ∧
    ∀ c, c ≠ [] → ((compactToHex c).map hexToCompact = some c ↔
      c.headD 0 / 16 ≤ 3 ∧ (c.headD 0 / 16 % 2 = 0 → c.headD 0 % 16 = 0)) := by
  refine ⟨fun ns t hns => compactToHex_hexToCompact hns t, hexToKeybytes_keybytesToHex, ?_⟩
  intro c hc
  obtain ⟨b, rest, rfl⟩ := List.exists_cons_of_ne_nil hc
  exact hexToCompact_compactToHex b rest

/-- An odd leaf key round-trips, and the compact key `0x51` (flag nibble `5`) does not. -/
theorem key_encodings_round_trip_odd_leaf :
    compactToHex (hexToCompact (withTerm [1, 2, 3] true)) = some (withTerm [1, 2, 3] true) ∧
      ¬ (compactToHex [0x51]).map hexToCompact = some [0x51] :=
  ⟨key_encodings_round_trip.1 [1, 2, 3] true (by decide),
    fun h => absurd ((key_encodings_round_trip.2.2 [0x51] (by simp)).mp h).1 (by decide)⟩

end Trie
end Ethcore
