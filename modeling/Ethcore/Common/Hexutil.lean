import Mathlib
import Ethcore.Lib.Positional
import Ethcore.Rlp.Item

/-!
# Hex quantities: `common/hexutil`

A quantity is written `0x` followed by its hex digits, without leading zeros, `0x0` for zero.
Four decoders read it back.  `DecodeBig` and `Big.UnmarshalText` take the digits after their
prefix checks and assemble `big.Word`s of 16 digits each from the right; `DecodeUint64` hands
them to `strconv.ParseUint`, and `Uint64.UnmarshalText` folds them into a `uint64` after a
length check.

Strings and byte slices are both byte lists here, and a character is its ASCII byte.  A
`big.Word` is a `uint64`, as on the 64-bit platforms, where `bigWordNibbles` is 16.

What the decoders accept and return is stated once, through the value of the digits
(`DecodeBig_ok_iff`, `ParseUint_ok_iff`): a decoded quantity encodes back to its input in lower
case, every number below `2^256` survives the round trip, and the two decoders of each kind
accept the same non-empty inputs with the same values (`DecodeBig_round_trip`).
-/

namespace Ethcore
namespace Hexutil

/-- The `decError`s of `hexutil`, by the names of the variables that hold them. -/
inductive decError where
  | ErrEmptyString
  | ErrSyntax
  | ErrMissingPrefix
  | ErrOddLength
  | ErrEmptyNumber
  | ErrLeadingZero
  | ErrUint64Range
  | ErrUintRange
  | ErrBig256Range
  deriving DecidableEq, Repr

/-! ### Digits and prefixes -/

/-- `badNibble`, `^uint64(0)`. -/
def badNibble : UInt64 := 0 - 1

/-- `decodeNibble`: the value of `0`–`9`, `A`–`F` and `a`–`f` (bytes 48–57, 65–70, 97–102). -/
def decodeNibble (c : UInt8) : UInt64 :=
  if 48 ≤ c ∧ c ≤ 57 then (c - 48).toUInt64
  else if 65 ≤ c ∧ c ≤ 70 then (c - 65 + 10).toUInt64
  else if 97 ≤ c ∧ c ≤ 102 then (c - 97 + 10).toUInt64
  else badNibble

/-- `has0xPrefix` and `bytesHave0xPrefix`: `0x` or `0X` (bytes 48, then 120 or 88). -/
def has0xPrefix (input : Bytes) : Bool :=
  match input with
  | c :: x :: _ => c == 48 && (x == 120 || x == 88)
  | _ => false

/-- The checks `checkNumber` and `checkNumberText` share, with what the empty input gives. -/
def checkNumberWith (empty : Except decError Bytes) (input : Bytes) : Except decError Bytes :=
  if input.length = 0 then empty
  else if !has0xPrefix input then .error .ErrMissingPrefix
  else
    let input := input.drop 2
    if input.length = 0 then .error .ErrEmptyNumber
    else if input.length > 1 ∧ input.head? = some 48 then .error .ErrLeadingZero
    else .ok input

/-- `checkNumber`: the empty string is an error. -/
def checkNumber (input : Bytes) : Except decError Bytes :=
  checkNumberWith (.error .ErrEmptyString) input

/-- `checkNumberText`: the empty text is allowed, as no digits. -/
def checkNumberText (input : Bytes) : Except decError Bytes :=
  checkNumberWith (.ok []) input

/-! ### The decoders -/

/-- `bigWordNibbles`: the hex digits of a `big.Word`. -/
def bigWordNibbles : Nat := 16

/-- One digit of the loops of `DecodeBig` and `Uint64.UnmarshalText`:
`w *= 16; w += nib`, or `ErrSyntax` for a bad digit. -/
def nibbleStep (w : UInt64) (c : UInt8) : Except decError UInt64 :=
  let nib := decodeNibble c
  if nib = badNibble then .error .ErrSyntax else .ok (w * 16 + nib)

/-- The digit loop `words[i] *= 16; words[i] += nib` of `DecodeBig`, which is also the loop of
`Uint64.UnmarshalText`. -/
def decodeWord (digits : Bytes) : Except decError UInt64 :=
  digits.foldlM nibbleStep 0

/-- The word loop of `DecodeBig` over `k` words, word `i` made of the digits
`raw[max(end - 16, 0):end]`, from the last digits on. -/
def decodeWords (raw : Bytes) : Nat → Nat → Except decError (List UInt64)
  | 0, _ => .ok []
  | k + 1, e => do
    let start := e - bigWordNibbles
    let w ← decodeWord ((raw.take e).drop start)
    let ws ← decodeWords raw k start
    pure (w :: ws)

/-- `big.Int.SetBits`: the number of the words, least significant first. -/
def SetBits (words : List UInt64) : Nat :=
  words.foldr (fun w acc => w.toNat + 2 ^ 64 * acc) 0

/-- What `DecodeBig` and `Big.UnmarshalText` do after their prefix checks. -/
def decodeBigDigits (raw : Bytes) : Except decError Nat :=
  if raw.length > 64 then .error .ErrBig256Range
  else do
    let words ← decodeWords raw (raw.length / bigWordNibbles + 1) raw.length
    pure (SetBits words)

/-- `DecodeBig`. -/
def DecodeBig (input : Bytes) : Except decError Nat := do
  let raw ← checkNumber input
  decodeBigDigits raw

/-- `Big.UnmarshalText`. -/
def Big.UnmarshalText (input : Bytes) : Except decError Nat := do
  let raw ← checkNumberText input
  decodeBigDigits raw

/-- The errors of `strconv.ParseUint`. -/
inductive NumError where
  | ErrRange
  | ErrSyntax
  deriving DecidableEq, Repr

/-- `cutoff` of `strconv.ParseUint` in base 16: the least number whose product by 16
overflows. -/
def cutoff : UInt64 := (0 - 1) / 16 + 1

/-- `maxVal` for 64 bits, `uint64(1)<<64 - 1`: the shift by 64 gives 0 in Go. -/
def maxVal : UInt64 := 0 - 1

/-- The value of a digit or letter as `strconv.ParseUint` reads it, `lower(c)` being
`c | ('x' - 'X')`. -/
def parseDigit (c : UInt8) : Option UInt8 :=
  if 48 ≤ c ∧ c ≤ 57 then some (c - 48)
  else if 97 ≤ c ||| 32 ∧ c ||| 32 ≤ 122 then some ((c ||| 32) - 97 + 10)
  else none

/-- One byte of `strconv.ParseUint(s, 16, 64)`: it must be a digit of base 16, before the
overflow tests. -/
def parseStep (n : UInt64) (c : UInt8) : Except NumError UInt64 :=
  match parseDigit c with
  | none => .error .ErrSyntax
  | some d =>
    if d ≥ 16 then .error .ErrSyntax
    else if n ≥ cutoff then .error .ErrRange
    else
      let n := n * 16
      let n1 := n + d.toUInt64
      if n1 < n ∨ n1 > maxVal then .error .ErrRange else .ok n1

/-- `strconv.ParseUint(s, 16, 64)`. -/
def ParseUint (s : Bytes) : Except NumError UInt64 :=
  if s = [] then .error .ErrSyntax
  else s.foldlM parseStep 0

/-- `mapError` on the errors of `strconv`. -/
def mapError : NumError → decError
  | .ErrRange => .ErrUint64Range
  | .ErrSyntax => .ErrSyntax

/-- `DecodeUint64`. -/
def DecodeUint64 (input : Bytes) : Except decError UInt64 := do
  let raw ← checkNumber input
  match ParseUint raw with
  | .ok dec => .ok dec
  | .error err => .error (mapError err)

/-- `Uint64.UnmarshalText`: at most 16 digits, folded by the digit loop. -/
def Uint64.UnmarshalText (input : Bytes) : Except decError UInt64 := do
  let raw ← checkNumberText input
  if raw.length > 16 then .error .ErrUint64Range
  else decodeWord raw

/-! ### The encoder -/

/-- A digit as `fmt` writes it in `%x`: `0`–`9`, then `a`–`f`. -/
def hexDigit (d : Nat) : UInt8 := if d < 10 then 48 + d.toUInt8 else 87 + d.toUInt8

/-- `EncodeBig`: `0x0` for zero, else `fmt.Sprintf("%#x", n)`, the lower-case digits of `n`
without leading zeros after `0x`. -/
def EncodeBig (n : Nat) : Bytes :=
  if n.size = 0 then [48, 120, 48]
  else [48, 120] ++ (Nat.digits 16 n).reverse.map hexDigit

/-- `Big.MarshalText`. -/
def Big.MarshalText (n : Nat) : Bytes := EncodeBig n

/-! ### Digits -/

/-- A hex digit: a byte `decodeNibble` reads. -/
def IsNibble (c : UInt8) : Prop := decodeNibble c ≠ badNibble

instance : DecidablePred IsNibble := fun c =>
  inferInstanceAs (Decidable (decodeNibble c ≠ badNibble))

/-- The value of a hex digit. -/
def nib (c : UInt8) : Nat := (decodeNibble c).toNat

/-- The value of a string of hex digits, the most significant first. -/
def digitsValue (raw : Bytes) : Nat := Nat.ofDigitsBE 16 (raw.map nib)

/-- The byte with its ASCII letter in lower case. -/
def lowerCase (c : UInt8) : UInt8 := if 65 ≤ c ∧ c ≤ 90 then c + 32 else c

set_option maxRecDepth 1000 in
theorem nib_lt {c : UInt8} (h : IsNibble c) : nib c < 16 :=
  BigEndian.forall_byte (P := fun c => IsNibble c → nib c < 16) (by decide) c h

set_option maxRecDepth 1000 in
/-- `fmt` writes a digit back as its lower-case form. -/
theorem hexDigit_nib {c : UInt8} (h : IsNibble c) : hexDigit (nib c) = lowerCase c :=
  BigEndian.forall_byte (P := fun c => IsNibble c → hexDigit (nib c) = lowerCase c) (by decide) c h

set_option maxRecDepth 1000 in
theorem nib_eq_zero {c : UInt8} (h : IsNibble c) : nib c = 0 ↔ c = 48 :=
  BigEndian.forall_byte (P := fun c => IsNibble c → (nib c = 0 ↔ c = 48)) (by decide) c h

theorem decodeNibble_hexDigit : ∀ d, d < 16 → decodeNibble (hexDigit d) = d.toUInt64 := by
  decide

theorem isNibble_hexDigit {d : Nat} (hd : d < 16) : IsNibble (hexDigit d) := by
  rw [IsNibble, decodeNibble_hexDigit d hd]
  intro h
  have := congrArg UInt64.toNat h
  simp [badNibble] at this
  omega

theorem nib_hexDigit {d : Nat} (hd : d < 16) : nib (hexDigit d) = d := by
  rw [nib, decodeNibble_hexDigit d hd]
  simp
  omega

set_option maxRecDepth 1000 in
theorem parseDigit_of_isNibble {c : UInt8} (h : IsNibble c) :
    parseDigit c = some (nib c).toUInt8 :=
  BigEndian.forall_byte (P := fun c => IsNibble c → parseDigit c = some (nib c).toUInt8)
    (by decide) c h

set_option maxRecDepth 1000 in
/-- What `strconv` reads as a digit below 16 is a hex digit, of the same value. -/
theorem parseDigit_of_mem {c d : UInt8} (hd : d ∈ parseDigit c) (h16 : d < 16) :
    IsNibble c ∧ d.toNat = nib c := by
  -- a byte that is not a hex digit reads as nothing, or as 16 or more; the table is over the
  -- byte alone, not over the pairs of a byte and a digit
  have htable : IsNibble c ∨ (parseDigit c).all (16 ≤ ·) = true :=
    BigEndian.forall_byte (P := fun c => IsNibble c ∨ (parseDigit c).all (16 ≤ ·) = true)
      (by decide) c
  rw [Option.mem_def] at hd
  rcases htable with hc | hall
  · rw [parseDigit_of_isNibble hc, Option.some.injEq] at hd
    subst hd
    have := nib_lt hc
    refine ⟨hc, ?_⟩
    simp
    omega
  · rw [hd] at hall
    simp only [Option.all_some, decide_eq_true_eq] at hall
    exact absurd h16 (UInt8.not_lt.mpr hall)

theorem digitsValue_cons (c : UInt8) (raw : Bytes) :
    digitsValue (c :: raw) = nib c * 16 ^ raw.length + digitsValue raw := by
  rw [digitsValue, List.map_cons, Nat.ofDigitsBE_cons, List.length_map]
  rfl

theorem digitsValue_append (xs ys : Bytes) :
    digitsValue (xs ++ ys) = digitsValue xs * 16 ^ ys.length + digitsValue ys := by
  rw [digitsValue, List.map_append, Nat.ofDigitsBE_append, List.length_map]
  rfl

theorem digitsValue_lt {raw : Bytes} (h : ∀ c ∈ raw, IsNibble c) :
    digitsValue raw < 16 ^ raw.length := by
  rw [digitsValue, ← List.length_map nib]
  apply Nat.ofDigitsBE_lt (by norm_num)
  simp only [List.mem_map]
  rintro d ⟨c, hc, rfl⟩
  exact nib_lt (h c hc)

/-- A non-zero leading digit puts the value at the base to the other digits' count or more. -/
theorem pow_le_digitsValue_cons {c : UInt8} (rest : Bytes) (hc : 0 < nib c) :
    16 ^ rest.length ≤ digitsValue (c :: rest) := by
  rw [digitsValue, List.map_cons, ← List.length_map (f := nib)]
  exact Nat.pow_le_ofDigitsBE_cons _ hc

/-! ### The digit loop -/

theorem nibbleStep_ok_iff {w w' : UInt64} {c : UInt8} :
    nibbleStep w c = .ok w' ↔ IsNibble c ∧ w' = w * 16 + decodeNibble c := by
  unfold nibbleStep IsNibble
  by_cases h : decodeNibble c = badNibble <;> simp [h, eq_comm]

theorem nibbleStep_error {w : UInt64} {c : UInt8} (h : ¬ IsNibble c) :
    nibbleStep w c = .error .ErrSyntax := by
  unfold nibbleStep
  rw [if_pos (not_not.mp h)]

/-- Over hex digits that fit the word, the loop computes their value after the start. -/
theorem foldlM_nibbleStep_ok : ∀ (ds : Bytes) (w : UInt64), (∀ c ∈ ds, IsNibble c) →
    w.toNat * 16 ^ ds.length + digitsValue ds < 2 ^ 64 →
    ∃ w', ds.foldlM nibbleStep w = .ok w' ∧
      w'.toNat = w.toNat * 16 ^ ds.length + digitsValue ds := by
  intro ds
  induction ds with
  | nil => intro w _ _; exact ⟨w, rfl, by simp [digitsValue]⟩
  | cons c ds ih =>
    intro w hvalid hlt
    have hc := hvalid c List.mem_cons_self
    rw [digitsValue_cons, List.length_cons] at hlt
    -- the step does not wrap: `w * 16 + nib c` is at most what the whole string reaches
    have hstep : (w * 16 + decodeNibble c).toNat = w.toNat * 16 + nib c := by
      have hle : (w.toNat * 16 + nib c) * 16 ^ ds.length ≤
          w.toNat * 16 ^ (ds.length + 1) + nib c * 16 ^ ds.length := by
        rw [pow_succ]
        nlinarith
      have hpos : 0 < 16 ^ ds.length := by positivity
      have hbound : w.toNat * 16 + nib c < 2 ^ 64 := by
        by_contra hge
        have := Nat.mul_le_mul_right (16 ^ ds.length) (not_lt.mp hge)
        nlinarith
      have h16 : (16 : UInt64).toNat = 16 := rfl
      simp only [UInt64.toNat_add, UInt64.toNat_mul, h16, nib] at hbound ⊢
      omega
    obtain ⟨w', hfold, hw'⟩ := ih (w * 16 + decodeNibble c)
      (fun c' hc' => hvalid c' (List.mem_cons_of_mem c hc')) (by rw [hstep, pow_succ] at *; nlinarith)
    refine ⟨w', ?_, ?_⟩
    · rw [List.foldlM_cons, (Iff.mpr nibbleStep_ok_iff ⟨hc, rfl⟩ : nibbleStep w c = _)]
      exact hfold
    · rw [hw', hstep, digitsValue_cons, List.length_cons, pow_succ]
      ring

/-- A bad digit stops the loop with `ErrSyntax`. -/
theorem foldlM_nibbleStep_error : ∀ (ds : Bytes) (w : UInt64), (∃ c ∈ ds, ¬ IsNibble c) →
    ds.foldlM nibbleStep w = .error .ErrSyntax := by
  intro ds
  induction ds with
  | nil => intro w h; simp at h
  | cons c ds ih =>
    intro w h
    rw [List.foldlM_cons]
    by_cases hc : IsNibble c
    · -- the bad digit comes later
      have hrest : ∃ c' ∈ ds, ¬ IsNibble c' := by
        obtain ⟨c', hc', hbad⟩ := h
        rcases List.mem_cons.mp hc' with rfl | hmem
        · exact absurd hc hbad
        · exact ⟨c', hmem, hbad⟩
      rw [(Iff.mpr nibbleStep_ok_iff ⟨hc, rfl⟩ : nibbleStep w c = _)]
      exact ih _ hrest
    · rw [nibbleStep_error hc]
      rfl

theorem decodeWord_ok {ds : Bytes} (h : ∀ c ∈ ds, IsNibble c) (hlen : ds.length ≤ 16) :
    ∃ w, decodeWord ds = .ok w ∧ w.toNat = digitsValue ds := by
  have hlt : digitsValue ds < 2 ^ 64 :=
    calc digitsValue ds < 16 ^ ds.length := digitsValue_lt h
      _ ≤ 16 ^ 16 := Nat.pow_le_pow_right (by norm_num) hlen
      _ = 2 ^ 64 := by norm_num
  obtain ⟨w, hfold, hw⟩ := foldlM_nibbleStep_ok ds 0 h (by simpa using hlt)
  exact ⟨w, hfold, by simpa using hw⟩

theorem decodeWord_error {ds : Bytes} (h : ∃ c ∈ ds, ¬ IsNibble c) :
    decodeWord ds = .error .ErrSyntax :=
  foldlM_nibbleStep_error ds 0 h

/-! ### The word loop -/

@[simp] theorem SetBits_nil : SetBits [] = 0 := rfl

@[simp] theorem SetBits_cons (w : UInt64) (ws : List UInt64) :
    SetBits (w :: ws) = w.toNat + 2 ^ 64 * SetBits ws := rfl

/-- The digits up to `e` are those up to `e - 16`, then the word that ends at `e`. -/
theorem take_eq_take_append_word (raw : Bytes) (e : Nat) :
    raw.take e = raw.take (e - bigWordNibbles) ++ (raw.take e).drop (e - bigWordNibbles) := by
  conv_lhs => rw [← List.take_append_drop (e - bigWordNibbles) (raw.take e)]
  rw [List.take_take, Nat.min_eq_left (Nat.sub_le _ _)]

/-- Over hex digits, `k` words reaching back from `e` hold the value of the digits up to `e`,
when they are enough for them. -/
theorem decodeWords_ok (raw : Bytes) : ∀ (k e : Nat), e ≤ raw.length → e ≤ k * 16 →
    (∀ c ∈ raw.take e, IsNibble c) →
    ∃ ws, decodeWords raw k e = .ok ws ∧ SetBits ws = digitsValue (raw.take e) := by
  intro k
  induction k with
  | zero =>
    intro e _ hk _
    have he : e = 0 := by omega
    exact ⟨[], rfl, by simp [he, digitsValue]⟩
  | succ k ih =>
    intro e hlen hk hvalid
    have hsplit := take_eq_take_append_word raw e
    set start := e - bigWordNibbles with hstart
    set chunk := (raw.take e).drop start with hchunk
    have hvalid' : ∀ c ∈ raw.take start ++ chunk, IsNibble c := hsplit ▸ hvalid
    have hchunklen : chunk.length = e - start := by
      simp only [hchunk, List.length_drop, List.length_take]
      omega
    obtain ⟨w, hw, hwv⟩ := decodeWord_ok (fun c hc => hvalid' c (List.mem_append_right _ hc))
      (by simp only [hchunklen, hstart, bigWordNibbles]; omega)
    obtain ⟨ws, hws, hwsv⟩ := ih start (by omega) (by simp only [hstart, bigWordNibbles]; omega)
      (fun c hc => hvalid' c (List.mem_append_left _ hc))
    refine ⟨w :: ws, by simp only [decodeWords, ← hstart, ← hchunk, hw, hws]; rfl, ?_⟩
    rw [SetBits_cons, hwv, hwsv, hsplit, digitsValue_append]
    -- a full word is 16 digits; a short one is the first, with nothing before it
    by_cases hfull : bigWordNibbles ≤ e
    · have h16 : chunk.length = 16 := by simp only [hchunklen, hstart, bigWordNibbles] at *; omega
      rw [h16]
      norm_num
      ring
    · have h0 : start = 0 := by omega
      simp [h0, digitsValue]

/-- A bad digit among those up to `e` stops the word loop with `ErrSyntax`. -/
theorem decodeWords_error (raw : Bytes) : ∀ (k e : Nat), e ≤ k * 16 →
    (∃ c ∈ raw.take e, ¬ IsNibble c) → decodeWords raw k e = .error .ErrSyntax := by
  intro k
  induction k with
  | zero =>
    intro e hk hbad
    have he : e = 0 := by omega
    simp [he] at hbad
  | succ k ih =>
    intro e hk hbad
    have hsplit := take_eq_take_append_word raw e
    set start := e - bigWordNibbles with hstart
    set chunk := (raw.take e).drop start with hchunk
    rw [hsplit] at hbad
    by_cases hc : ∀ c ∈ chunk, IsNibble c
    · -- the word is read, and the bad digit lies in the words before it
      have hlen : chunk.length ≤ 16 := by
        simp only [hchunk, List.length_drop, List.length_take, hstart, bigWordNibbles]
        omega
      obtain ⟨w, hw, -⟩ := decodeWord_ok hc hlen
      have hrest : ∃ c ∈ raw.take start, ¬ IsNibble c := by
        obtain ⟨c, hmem, hnot⟩ := hbad
        rcases List.mem_append.mp hmem with h | h
        · exact ⟨c, h, hnot⟩
        · exact absurd (hc c h) hnot
      simp only [decodeWords, ← hstart, ← hchunk, hw,
        ih start (by simp only [hstart, bigWordNibbles]; omega) hrest]
      rfl
    · -- the bad digit is in this word
      push Not at hc
      simp only [decodeWords, ← hstart, ← hchunk, decodeWord_error hc]
      rfl

/-- After the prefix checks, the big decoders read at most 64 hex digits, as their value. -/
theorem decodeBigDigits_eq (raw : Bytes) :
    decodeBigDigits raw =
      if raw.length > 64 then .error .ErrBig256Range
      else if ∀ c ∈ raw, IsNibble c then .ok (digitsValue raw) else .error .ErrSyntax := by
  -- the words are enough for the digits: one more than the full words
  have henough : raw.length ≤ (raw.length / bigWordNibbles + 1) * 16 := by
    simp only [bigWordNibbles]
    omega
  unfold decodeBigDigits
  split_ifs with h64 hvalid
  · rfl
  · obtain ⟨ws, hws, hv⟩ := decodeWords_ok raw _ raw.length le_rfl henough
      (by rwa [List.take_length])
    rw [hws, List.take_length] at *
    rw [← hv]
    rfl
  · push Not at hvalid
    rw [decodeWords_error raw _ raw.length henough (by rwa [List.take_length])]
    rfl

/-! ### The prefix checks -/

/-- What the prefix checks pass on: the digits after `0x` or `0X`, at least one, and no leading
zero unless `0` is the only digit. -/
theorem checkNumberWith_ok {empty : Except decError Bytes} {input raw : Bytes} (hne : input ≠ []) :
    checkNumberWith empty input = .ok raw ↔
      ∃ x, input = 48 :: x :: raw ∧ (x = 120 ∨ x = 88) ∧ raw ≠ [] ∧
        ¬ (raw.length > 1 ∧ raw.head? = some 48) := by
  rcases input with _ | ⟨c, _ | ⟨x, rest⟩⟩
  · exact absurd rfl hne
  · simp [checkNumberWith, has0xPrefix]
  · by_cases hp : c = 48 ∧ (x = 120 ∨ x = 88)
    · obtain ⟨rfl, hx⟩ := hp
      have hpre : has0xPrefix (48 :: x :: rest) = true := by
        rcases hx with rfl | rfl <;> rfl
      simp only [checkNumberWith, hpre, List.length_cons, List.drop_succ_cons, List.drop_zero,
        Nat.add_one_ne_zero, if_false, Bool.not_true, Bool.false_eq_true]
      split_ifs with h1 h2
      · simp only [false_iff]
        rintro ⟨x', hin, -, hraw, -⟩
        simp only [List.cons.injEq] at hin
        obtain ⟨-, -, rfl⟩ := hin
        exact hraw (List.length_eq_zero_iff.mp h1)
      · simp only [false_iff]
        rintro ⟨x', hin, -, -, hlead⟩
        simp only [List.cons.injEq] at hin
        obtain ⟨-, -, rfl⟩ := hin
        exact hlead h2
      · simp only [Except.ok.injEq]
        constructor
        · rintro rfl
          exact ⟨x, rfl, hx, fun h => h1 (by simp [h]), h2⟩
        · rintro ⟨x', hin, -, -, -⟩
          simp only [List.cons.injEq] at hin
          exact hin.2.2
    · have hpre : has0xPrefix (c :: x :: rest) = false := by
        simp only [has0xPrefix, Bool.and_eq_false_iff, beq_eq_false_iff_ne, Bool.or_eq_false_iff]
        tauto
      simp only [checkNumberWith, hpre, List.length_cons]
      simp only [Nat.add_one_ne_zero, if_false, Bool.not_false, if_true, reduceCtorEq, false_iff]
      rintro ⟨x', hin, hx', -⟩
      simp only [List.cons.injEq] at hin
      obtain ⟨rfl, rfl, -⟩ := hin
      exact hp ⟨rfl, hx'⟩

theorem checkNumber_ok_iff {input raw : Bytes} :
    checkNumber input = .ok raw ↔
      ∃ x, input = 48 :: x :: raw ∧ (x = 120 ∨ x = 88) ∧ raw ≠ [] ∧
        ¬ (raw.length > 1 ∧ raw.head? = some 48) := by
  by_cases hne : input = []
  · subst hne
    simp [checkNumber, checkNumberWith]
  · exact checkNumberWith_ok hne

theorem checkNumber_eq_checkNumberText {input : Bytes} (hne : input ≠ []) :
    checkNumber input = checkNumberText input := by
  simp [checkNumber, checkNumberText, checkNumberWith, List.length_eq_zero_iff, hne]

/-! ### `strconv.ParseUint` -/

theorem bind_eq_ok_iff {ε α β : Type} {x : Except ε α} {f : α → Except ε β} {b : β} :
    x >>= f = .ok b ↔ ∃ a, x = .ok a ∧ f a = .ok b := by
  cases x <;> simp [bind, Except.bind]

theorem toNat_cutoff : cutoff.toNat = 2 ^ 60 := rfl

theorem toNat_maxVal : maxVal.toNat = 2 ^ 64 - 1 := rfl

/-- A step of `ParseUint` takes a hex digit into a number that cannot overflow. -/
theorem parseStep_ok_iff {n n' : UInt64} {c : UInt8} :
    parseStep n c = .ok n' ↔ IsNibble c ∧ n.toNat < 2 ^ 60 ∧ n'.toNat = n.toNat * 16 + nib c := by
  unfold parseStep
  cases hp : parseDigit c with
  | none =>
    -- not a digit or letter
    simp only [reduceCtorEq, false_iff]
    rintro ⟨hc, -⟩
    rw [parseDigit_of_isNibble hc] at hp
    cases hp
  | some d =>
    by_cases h16 : d ≥ 16
    · -- a letter past `f`
      simp only [if_pos h16, reduceCtorEq, false_iff]
      rintro ⟨hc, -⟩
      rw [parseDigit_of_isNibble hc, Option.some.injEq] at hp
      have := nib_lt hc
      rw [← hp] at h16
      simp only [ge_iff_le, UInt8.le_iff_toNat_le, UInt8.reduceToNat, Nat.toUInt8_eq,
        UInt8.toNat_ofNat'] at h16
      omega
    · obtain ⟨hc, hd⟩ := parseDigit_of_mem (c := c) (d := d) (by simp [hp]) (UInt8.not_le.mp h16)
      have hd16 : d.toNat < 16 := by rw [hd]; exact nib_lt hc
      simp only [if_neg h16, UInt64.le_iff_toNat_le, toNat_cutoff]
      by_cases hcut : 2 ^ 60 ≤ n.toNat
      · simp only [if_pos hcut, reduceCtorEq, false_iff]
        omega
      · -- no overflow: `n * 16 + d` stays below `2^64`
        have hmul : (n * 16).toNat = n.toNat * 16 := by
          rw [UInt64.toNat_mul]
          simp only [UInt64.reduceToNat]
          omega
        have hadd : (n * 16 + d.toUInt64).toNat = n.toNat * 16 + d.toNat := by
          rw [UInt64.toNat_add, hmul]
          simp only [UInt8.toNat_toUInt64]
          omega
        simp only [if_neg hcut, UInt64.lt_iff_toNat_lt, hadd, hmul, toNat_maxVal, gt_iff_lt]
        rw [if_neg (by omega)]
        simp only [Except.ok.injEq]
        constructor
        · rintro rfl
          exact ⟨hc, by omega, by rw [hadd, hd]⟩
        · rintro ⟨-, -, hn'⟩
          apply UInt64.toNat_inj.mp
          rw [hadd, hn', hd]

/-- The loop of `ParseUint` from any start: over hex digits, as long as the number it reaches
fits 64 bits. -/
theorem foldlM_parseStep_ok_iff : ∀ (ds : Bytes) (n v : UInt64),
    ds.foldlM parseStep n = .ok v ↔
      (∀ c ∈ ds, IsNibble c) ∧ n.toNat * 16 ^ ds.length + digitsValue ds < 2 ^ 64 ∧
        v.toNat = n.toNat * 16 ^ ds.length + digitsValue ds := by
  intro ds
  induction ds with
  | nil =>
    intro n v
    simp only [List.foldlM_nil, List.not_mem_nil, false_imp_iff, implies_true, List.length_nil,
      pow_zero, mul_one, digitsValue, List.map_nil, Nat.ofDigitsBE_nil, add_zero, true_and]
    constructor
    · rintro ⟨⟩
      exact ⟨n.toNat_lt, rfl⟩
    · rintro ⟨-, hv⟩
      rw [UInt64.toNat_inj.mp hv.symm]
      rfl
  | cons c ds ih =>
    intro n v
    rw [List.foldlM_cons, bind_eq_ok_iff, List.length_cons, digitsValue_cons]
    constructor
    · rintro ⟨n', hstep, hrest⟩
      obtain ⟨hc, -, hn'⟩ := Iff.mp parseStep_ok_iff hstep
      obtain ⟨hvalid, hlt, hv⟩ := (ih n' v).mp hrest
      rw [hn'] at hlt hv
      refine ⟨fun c' hc' => ?_, ?_, ?_⟩
      · rcases List.mem_cons.mp hc' with rfl | h
        · exact hc
        · exact hvalid c' h
      · rw [pow_succ]; nlinarith
      · rw [hv, pow_succ]; ring
    · rintro ⟨hvalid, hlt, hv⟩
      have hc := hvalid c List.mem_cons_self
      -- the start cannot reach `2^60`: one more digit follows it
      have hn : n.toNat < 2 ^ 60 := by
        by_contra hge
        have h16 : 16 ≤ 16 ^ (ds.length + 1) :=
          calc 16 = 16 ^ 1 := by norm_num
            _ ≤ 16 ^ (ds.length + 1) := Nat.pow_le_pow_right (by norm_num) (by omega)
        have : 2 ^ 60 * 16 ≤ n.toNat * 16 ^ (ds.length + 1) := Nat.mul_le_mul (not_lt.mp hge) h16
        omega
      -- the number after the first digit
      have hexp : n.toNat * 16 ^ (ds.length + 1) + (nib c * 16 ^ ds.length + digitsValue ds) =
          (n.toNat * 16 + nib c) * 16 ^ ds.length + digitsValue ds := by
        rw [pow_succ]
        ring
      have hto : (UInt64.ofNat (n.toNat * 16 + nib c)).toNat = n.toNat * 16 + nib c := by
        have := nib_lt hc
        rw [UInt64.toNat_ofNat']
        omega
      refine ⟨UInt64.ofNat (n.toNat * 16 + nib c), Iff.mpr parseStep_ok_iff ⟨hc, hn, hto⟩,
        (ih _ v).mpr ⟨fun c' hc' => hvalid c' (List.mem_cons_of_mem c hc'), ?_, ?_⟩⟩
      · rw [hto, ← hexp]
        exact hlt
      · rw [hto, ← hexp]
        exact hv

/-- `ParseUint` accepts a non-empty string of hex digits whose value fits 64 bits. -/
theorem ParseUint_ok_iff {s : Bytes} {v : UInt64} :
    ParseUint s = .ok v ↔
      s ≠ [] ∧ (∀ c ∈ s, IsNibble c) ∧ digitsValue s < 2 ^ 64 ∧ v.toNat = digitsValue s := by
  unfold ParseUint
  by_cases hs : s = []
  · simp [hs]
  · rw [if_neg hs, foldlM_parseStep_ok_iff]
    simp [hs]

/-! ### What the decoders accept -/

theorem DecodeBig_ok_iff {input : Bytes} {v : Nat} :
    DecodeBig input = .ok v ↔
      ∃ raw, checkNumber input = .ok raw ∧ raw.length ≤ 64 ∧ (∀ c ∈ raw, IsNibble c) ∧
        v = digitsValue raw := by
  rw [DecodeBig, bind_eq_ok_iff]
  apply exists_congr
  intro raw
  rw [decodeBigDigits_eq]
  split_ifs with h64 hvalid <;> simp_all [eq_comm]

theorem DecodeUint64_ok_iff {input : Bytes} {v : UInt64} :
    DecodeUint64 input = .ok v ↔
      ∃ raw, checkNumber input = .ok raw ∧ (∀ c ∈ raw, IsNibble c) ∧ digitsValue raw < 2 ^ 64 ∧
        v.toNat = digitsValue raw := by
  rw [DecodeUint64, bind_eq_ok_iff]
  apply exists_congr
  intro raw
  constructor
  · rintro ⟨hcheck, hparse⟩
    refine ⟨hcheck, ?_⟩
    cases hp : ParseUint raw with
    | error e =>
      rw [hp] at hparse
      cases hparse
    | ok dec =>
      rw [hp] at hparse
      cases hparse
      exact (Iff.mp ParseUint_ok_iff hp).2
  · rintro ⟨hcheck, hvalid, hlt, hv⟩
    obtain ⟨-, -, -, hne, -⟩ := Iff.mp checkNumber_ok_iff hcheck
    refine ⟨hcheck, ?_⟩
    rw [Iff.mpr ParseUint_ok_iff ⟨hne, hvalid, hlt, hv⟩]

theorem UnmarshalText64_ok_iff {input : Bytes} {v : UInt64} :
    Uint64.UnmarshalText input = .ok v ↔
      ∃ raw, checkNumberText input = .ok raw ∧ raw.length ≤ 16 ∧ (∀ c ∈ raw, IsNibble c) ∧
        v.toNat = digitsValue raw := by
  rw [Uint64.UnmarshalText, bind_eq_ok_iff]
  apply exists_congr
  intro raw
  apply and_congr_right
  intro _
  by_cases h16 : raw.length > 16
  · simp only [if_pos h16, reduceCtorEq, false_iff]
    omega
  · rw [if_neg h16]
    by_cases hvalid : ∀ c ∈ raw, IsNibble c
    · obtain ⟨w, hw, hwv⟩ := decodeWord_ok hvalid (by omega)
      rw [hw, Except.ok.injEq]
      constructor
      · rintro rfl
        exact ⟨by omega, hvalid, hwv⟩
      · rintro ⟨-, -, hv⟩
        exact UInt64.toNat_inj.mp (hwv.trans hv.symm)
    · push Not at hvalid
      rw [decodeWord_error hvalid]
      simp only [reduceCtorEq, false_iff]
      rintro ⟨-, hall, -⟩
      obtain ⟨c, hc, hbad⟩ := hvalid
      exact hbad (hall c hc)

/-! ### Digits that passed the prefix checks -/

/-- Checked digits are `0` alone or lead with a non-zero digit. -/
theorem checked_lead {raw : Bytes} (hraw : raw ≠ []) (hlead : ¬ (raw.length > 1 ∧ raw.head? = some 48))
    (hvalid : ∀ c ∈ raw, IsNibble c) :
    raw = [48] ∨ ∃ c rest, raw = c :: rest ∧ 0 < nib c := by
  obtain ⟨c, rest, rfl⟩ := List.exists_cons_of_ne_nil hraw
  have hc := hvalid c List.mem_cons_self
  by_cases hzero : nib c = 0
  · -- a leading `0` is the whole number
    have h48 : c = 48 := (nib_eq_zero hc).mp hzero
    subst h48
    have hrest : rest = [] := by
      by_contra hne
      exact hlead ⟨by simp [List.length_pos_iff.mpr hne], rfl⟩
    exact .inl (by rw [hrest])
  · exact .inr ⟨c, rest, rfl, Nat.pos_of_ne_zero hzero⟩

/-- Checked digits fit 64 bits exactly when there are at most 16 of them. -/
theorem digitsValue_lt_iff_length {raw : Bytes} (hraw : raw ≠ [])
    (hlead : ¬ (raw.length > 1 ∧ raw.head? = some 48)) (hvalid : ∀ c ∈ raw, IsNibble c) :
    digitsValue raw < 2 ^ 64 ↔ raw.length ≤ 16 := by
  rcases checked_lead hraw hlead hvalid with rfl | ⟨c, rest, rfl, hc⟩
  · simp [digitsValue, nib, decodeNibble, Nat.ofDigitsBE]
  · constructor
    · intro hlt
      by_contra hlen
      -- a non-zero leading digit puts the value at `16 ^ 16` or more
      have hge := pow_le_digitsValue_cons rest hc
      have h16 : 16 ^ 16 ≤ 16 ^ rest.length :=
        Nat.pow_le_pow_right (by norm_num) (by simp at hlen; omega)
      have : (2 : Nat) ^ 64 = 16 ^ 16 := by norm_num
      omega
    · intro hlen
      calc digitsValue (c :: rest) < 16 ^ (c :: rest).length := digitsValue_lt hvalid
        _ ≤ 16 ^ 16 := Nat.pow_le_pow_right (by norm_num) hlen
        _ = 2 ^ 64 := by norm_num

/-! ### Encoding -/

/-- The digits `fmt` writes for `n`. -/
theorem digitsValue_hexDigits (n : Nat) :
    digitsValue ((Nat.digits 16 n).reverse.map hexDigit) = n := by
  rw [digitsValue, List.map_map]
  have hid : ∀ d ∈ (Nat.digits 16 n).reverse, (nib ∘ hexDigit) d = d := fun d hd =>
    nib_hexDigit (Nat.digits_lt_base (by norm_num) (List.mem_reverse.mp hd))
  rw [List.map_congr_left hid, List.map_id', Nat.ofDigitsBE_digits]

theorem isNibble_hexDigits (n : Nat) :
    ∀ c ∈ (Nat.digits 16 n).reverse.map hexDigit, IsNibble c := by
  simp only [List.mem_map, List.mem_reverse]
  rintro c ⟨d, hd, rfl⟩
  exact isNibble_hexDigit (Nat.digits_lt_base (by norm_num) hd)

/-- `EncodeBig` passes the prefix checks with the digits of a positive number. -/
theorem checkNumber_EncodeBig {n : Nat} (hn : 0 < n) :
    checkNumber (EncodeBig n) = .ok ((Nat.digits 16 n).reverse.map hexDigit) := by
  have hsize : n.size ≠ 0 := by rw [Ne, Nat.size_eq_zero]; omega
  have hne : Nat.digits 16 n ≠ [] := Nat.digits_ne_nil_iff_ne_zero.mpr (by omega)
  rw [EncodeBig, if_neg hsize, checkNumber_ok_iff]
  refine ⟨120, rfl, .inl rfl, by simpa using hne, ?_⟩
  -- the leading digit is the last of the little-endian digits, which is not zero
  rintro ⟨-, hhead⟩
  rw [List.head?_map, List.head?_reverse, List.getLast?_eq_some_getLast hne, Option.map_some,
    Option.some.injEq] at hhead
  have hlast := Nat.getLast_digit_ne_zero 16 (m := n) (by omega)
  have hlt := Nat.digits_lt_base (by norm_num) (List.getLast_mem hne)
  have := nib_hexDigit hlt
  rw [hhead] at this
  exact hlast (by rw [← this]; rfl)

theorem UnmarshalText_eq_DecodeBig {input : Bytes} (hne : input ≠ []) :
    Big.UnmarshalText input = DecodeBig input := by
  rw [Big.UnmarshalText, DecodeBig, checkNumber_eq_checkNumberText hne]

/-! ### Round trips -/

/-- Every number below `2^256` decodes back from its encoding. -/
theorem DecodeBig_EncodeBig {n : Nat} (hn : n < 2 ^ 256) : DecodeBig (EncodeBig n) = .ok n := by
  rcases Nat.eq_zero_or_pos n with rfl | hpos
  · rfl
  · rw [DecodeBig_ok_iff]
    refine ⟨_, checkNumber_EncodeBig hpos, ?_, isNibble_hexDigits n,
      (digitsValue_hexDigits n).symm⟩
    -- at most 64 digits: `2^256 = 16^64`
    rw [List.length_map, List.length_reverse, Nat.digits_length_le_iff (by norm_num)]
    calc n < 2 ^ 256 := hn
      _ = 16 ^ 64 := by norm_num

/-- A decoded quantity encodes back to its input, in lower case. -/
theorem EncodeBig_DecodeBig {s : Bytes} {v : Nat} (h : DecodeBig s = .ok v) :
    EncodeBig v = s.map lowerCase := by
  obtain ⟨raw, hcheck, -, hvalid, rfl⟩ := Iff.mp DecodeBig_ok_iff h
  obtain ⟨x, rfl, hx, hne, hlead⟩ := Iff.mp checkNumber_ok_iff hcheck
  have hx' : lowerCase x = 120 := by rcases hx with rfl | rfl <;> rfl
  -- each digit in lower case is the digit `fmt` writes for its value
  have hlower : raw.map lowerCase = (raw.map nib).map hexDigit := by
    rw [List.map_map]
    exact List.map_congr_left (fun c hc => (hexDigit_nib (hvalid c hc)).symm)
  rw [List.map_cons, List.map_cons, hx', hlower]
  rcases checked_lead hne hlead hvalid with rfl | ⟨c, rest, rfl, hc⟩
  · rfl
  · have hds : ∀ d ∈ (c :: rest).map nib, d < 16 := by
      simp only [List.mem_map]
      rintro d ⟨c', hc', rfl⟩
      exact nib_lt (hvalid c' hc')
    have hhead : ∀ d, ((c :: rest).map nib).head? = some d → d ≠ 0 := by
      intro d hd
      simp only [List.map_cons, List.head?_cons, Option.some.injEq] at hd
      omega
    have hpos : 0 < digitsValue (c :: rest) :=
      lt_of_lt_of_le (by positivity) (pow_le_digitsValue_cons rest hc)
    have hsize : (digitsValue (c :: rest)).size ≠ 0 := by rw [Ne, Nat.size_eq_zero]; omega
    rw [EncodeBig, if_neg hsize, digitsValue, Nat.digits_ofDigitsBE (by norm_num) hds hhead]
    rfl

/-- On a non-empty input the two `uint64` decoders accept the same strings, with the same
values, though not always with the same error. -/
theorem DecodeUint64_ok_iff_UnmarshalText {s : Bytes} (hne : s ≠ []) (v : UInt64) :
    DecodeUint64 s = .ok v ↔ Uint64.UnmarshalText s = .ok v := by
  rw [DecodeUint64_ok_iff, UnmarshalText64_ok_iff, ← checkNumber_eq_checkNumberText hne]
  apply exists_congr
  intro raw
  constructor
  · rintro ⟨hcheck, hvalid, hlt, hv⟩
    obtain ⟨-, -, -, hraw, hlead⟩ := Iff.mp checkNumber_ok_iff hcheck
    exact ⟨hcheck, (digitsValue_lt_iff_length hraw hlead hvalid).mp hlt, hvalid, hv⟩
  · rintro ⟨hcheck, hlen, hvalid, hv⟩
    obtain ⟨-, -, -, hraw, hlead⟩ := Iff.mp checkNumber_ok_iff hcheck
    exact ⟨hcheck, hvalid, (digitsValue_lt_iff_length hraw hlead hvalid).mpr hlen, hv⟩

-- sixteen `1`s and a `g`: `ParseUint` meets the bad digit, the length check comes first
example : DecodeUint64 ([48, 120] ++ List.replicate 16 49 ++ [103]) = .error .ErrSyntax ∧
    Uint64.UnmarshalText ([48, 120] ++ List.replicate 16 49 ++ [103]) =
      .error .ErrUint64Range := by
  decide

/-- The hex quantity codec: every number below `2^256` survives an encoding and a decoding by
either big decoder, a decoded quantity encodes back to its input in lower case, and on
non-empty inputs the two decoders of each kind accept the same strings with the same values. -/
theorem DecodeBig_round_trip :
    (∀ n : Nat, n < 2 ^ 256 →
      DecodeBig (EncodeBig n) = .ok n ∧ Big.UnmarshalText (Big.MarshalText n) = .ok n) ∧
    (∀ (s : Bytes) (v : Nat), DecodeBig s = .ok v → EncodeBig v = s.map lowerCase) ∧
    (∀ s : Bytes, s ≠ [] →
      DecodeBig s = Big.UnmarshalText s ∧
        ∀ v : UInt64, DecodeUint64 s = .ok v ↔ Uint64.UnmarshalText s = .ok v) := by
  refine ⟨fun n hn => ⟨DecodeBig_EncodeBig hn, ?_⟩, fun s v h => EncodeBig_DecodeBig h,
    fun s hne => ⟨(UnmarshalText_eq_DecodeBig hne).symm, DecodeUint64_ok_iff_UnmarshalText hne⟩⟩
  -- the encoding is never empty
  have hne : Big.MarshalText n ≠ [] := by
    unfold Big.MarshalText EncodeBig
    split_ifs <;> simp
  rw [UnmarshalText_eq_DecodeBig hne]
  exact DecodeBig_EncodeBig hn

end Hexutil

namespace Common

/-- `common.Bytes2Hex`, that is `hex.EncodeToString`: two lower-case digits for each byte. -/
def Bytes2Hex (d : Bytes) : Bytes :=
  d.flatMap fun b => [Hexutil.hexDigit (b.toNat / 16), Hexutil.hexDigit (b.toNat % 16)]

/-- `common.ToHex`: `0x` and the digits of the bytes, `0x0` for no bytes. -/
def ToHex (b : Bytes) : Bytes :=
  let hex := Bytes2Hex b
  [48, 120] ++ (if hex.length = 0 then [48] else hex)

end Common
end Ethcore
