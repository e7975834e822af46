import Ethcore.Vm.Gas

/-!
# Jump destinations: `analysis.go`

`jumpdests` scans the code from position 0 and sets one bit for each JUMPDEST it meets,
stepping over the data of each push.  `destinations.has` reads that bit for a destination
within the code, after computing the bitmap once per code hash.

The positions the scan visits are the code's instruction boundaries: the positions the linear
decoding of the code reaches from position 0, a push taking its data with it (`Boundary`).
No boundary lies inside an instruction (`Boundary.next_le`), so the scan marks exactly the
JUMPDESTs at boundaries (`bitAt_jumpdests`).  `has` holds exactly for them, as long as the
map holds this code's bitmap or nothing at the code's hash (`has_spec`).
-/

namespace Ethcore
namespace Vm

open Common OpCode

/-- The bytes an instruction takes in the code: `PUSHn` is followed by its `n` bytes of
data. -/
def width (op : OpCode) : Nat :=
  if PUSH1 ≤ op ∧ op ≤ PUSH32 then op.toNat - PUSH1.toNat + 2 else 1

theorem one_le_width (op : OpCode) : 1 ≤ width op := by
  unfold width
  split_ifs <;> omega

/-- The instruction boundaries of `code`: the positions its linear decoding from position 0
reaches.  The last may lie past the end of the code, when a push's data runs out. -/
inductive Boundary (code : Bytes) : Nat → Prop
  | zero : Boundary code 0
  | next {pc : Nat} (h : Boundary code pc) (hlt : pc < code.length) :
      Boundary code (pc + width code[pc])

/-- **No boundary lies inside an instruction**: the boundary after `p` is the end of the
instruction at `p`.  By strong induction on the later boundary `q`: the boundary `r` before
it is either `p`, or before `p` (and then `q` would not be after `p`), or after `p`. -/
theorem Boundary.next_le {code : Bytes} :
    ∀ q, Boundary code q → ∀ p, Boundary code p → ∀ hp : p < code.length, p < q →
      p + width code[p] ≤ q := by
  intro q
  induction q using Nat.strong_induction_on with
  | _ q ih =>
    intro hq p hpb hp hpq
    cases hq with
    | zero => omega
    | @next r hr hlt =>
        have hw := one_le_width code[r]
        rcases Nat.lt_trichotomy p r with hpr | rfl | hrp
        · have := ih r (by omega) hr p hpb hp hpr
          omega
        · exact le_rfl
        · have := ih p hpq hpb r hr hlt hrp
          omega

/-- A JUMPDEST a jump may land on: within the code, and at a boundary. -/
def ValidJumpdest (code : Bytes) (i : Nat) : Prop :=
  ∃ h : i < code.length, code[i] = JUMPDEST ∧ Boundary code i

/-! ### The bitmap -/

/-- The bit of position `i` in a bitmap: bit `i % 8` of byte `i / 8`. -/
def bitAt (m : List UInt8) (i : Nat) : Bool := (m.getD (i / 8) 0).toNat.testBit (i % 8)

/-- The one-bit mask `1 << k` of a byte. -/
theorem toNat_one_shiftLeft {k : Nat} (hk : k < 8) : ((1 : UInt8) <<< k.toUInt8).toNat = 2 ^ k := by
  rw [UInt8.toNat_shiftLeft]
  interval_cases k <;> rfl

/-- `b & (1 << k) != 0` reads bit `k` of `b`. -/
theorem and_one_shiftLeft_ne_zero (b : UInt8) {k : Nat} (hk : k < 8) :
    ((b &&& (1 <<< k.toUInt8)) != 0) = b.toNat.testBit k := by
  rw [Bool.eq_iff_iff, bne_iff_ne, ne_eq, ← UInt8.toNat_inj, UInt8.toNat_and,
    toNat_one_shiftLeft hk, Nat.and_two_pow]
  cases b.toNat.testBit k <;> simp

/-- `b | (1 << k)` sets bit `k` of `b`. -/
theorem testBit_or_one_shiftLeft (b : UInt8) {k : Nat} (hk : k < 8) (j : Nat) :
    (b ||| (1 <<< k.toUInt8)).toNat.testBit j = (b.toNat.testBit j || decide (k = j)) := by
  rw [UInt8.toNat_or, toNat_one_shiftLeft hk, Nat.testBit_or, Nat.testBit_two_pow]

/-- `m[pc/8] |= 1 << (pc % 8)`: set the bit of `pc`. -/
def setBit (m : List UInt8) (pc : Nat) : List UInt8 :=
  m.modify (pc / 8) (· ||| (1 <<< (pc % 8).toUInt8))

@[simp] theorem length_setBit (m : List UInt8) (pc : Nat) : (setBit m pc).length = m.length :=
  List.length_modify _ _ _

theorem bitAt_setBit {m : List UInt8} {pc : Nat} (hpc : pc / 8 < m.length) (i : Nat) :
    bitAt (setBit m pc) i = (bitAt m i || decide (i = pc)) := by
  unfold bitAt setBit
  rw [List.getD_eq_getElem?_getD, List.getD_eq_getElem?_getD, List.getElem?_modify]
  by_cases hdiv : pc / 8 = i / 8
  · -- the same byte: the bit of `pc` is set in it
    have hi : i / 8 < m.length := hdiv ▸ hpc
    rw [List.getElem?_eq_getElem hi]
    simp only [Option.map_eq_map, Option.map_some, hdiv, if_true, Option.getD_some]
    rw [testBit_or_one_shiftLeft _ (Nat.mod_lt _ (by decide))]
    congr 1
    apply Bool.eq_iff_iff.mpr
    simp only [decide_eq_true_eq]
    omega
  · -- another byte: nothing changes, and `i` is not `pc`
    have hne : i ≠ pc := fun h => hdiv (h ▸ rfl)
    simp only [hdiv, if_false, Functor.map, Option.map_id', hne, decide_false, Bool.or_false]

theorem bitAt_replicate (n i : Nat) : bitAt (List.replicate n 0) i = false := by
  unfold bitAt
  rw [List.getD_eq_getElem?_getD, List.getElem?_replicate]
  split_ifs <;> simp

/-! ### The scan -/

/-- The loop of `jumpdests` from position `pc`, with the bitmap `m` so far. -/
def jumpdestsLoop (code : Bytes) (m : List UInt8) (pc : Nat) : List UInt8 :=
  if h : pc < code.length then
    let op := code[pc]
    if op = JUMPDEST then jumpdestsLoop code (setBit m pc) (pc + 1)
    else if PUSH1 ≤ op ∧ op ≤ PUSH32 then
      -- step over the push's data, then the loop's own increment
      let a := op.toNat - PUSH1.toNat + 1
      jumpdestsLoop code m (pc + a + 1)
    else jumpdestsLoop code m (pc + 1)
  else m
termination_by code.length - pc

/-- `jumpdests`: the bitmap of the code's JUMPDESTs, one bit for each byte of code. -/
def jumpdests (code : Bytes) : List UInt8 :=
  jumpdestsLoop code (List.replicate (code.length / 8 + 1) 0) 0

theorem width_of_not_push {op : OpCode} (h : ¬(PUSH1 ≤ op ∧ op ≤ PUSH32)) : width op = 1 := by
  rw [width, if_neg h]

theorem width_of_push {op : OpCode} (h : PUSH1 ≤ op ∧ op ≤ PUSH32) :
    width op = op.toNat - PUSH1.toNat + 1 + 1 := by
  rw [width, if_pos h]

theorem JUMPDEST_not_push : ¬(PUSH1 ≤ JUMPDEST ∧ JUMPDEST ≤ PUSH32) := by decide

theorem length_jumpdestsLoop (code : Bytes) (m : List UInt8) (pc : Nat) :
    (jumpdestsLoop code m pc).length = m.length := by
  fun_induction jumpdestsLoop code m pc with
  | case1 m pc _ _ _ ih => rw [ih, length_setBit]
  | case2 _ _ _ _ _ _ _ ih => exact ih
  | case3 _ _ _ _ _ _ ih => exact ih
  | case4 => rfl

theorem length_jumpdests (code : Bytes) : (jumpdests code).length = code.length / 8 + 1 := by
  rw [jumpdests, length_jumpdestsLoop, List.length_replicate]

/-- Between a boundary and the end of its instruction, only the boundary itself can be a
JUMPDEST a jump lands on. -/
theorem ValidJumpdest.eq_of_lt {code : Bytes} {pc i : Nat} (hi : ValidJumpdest code i)
    (hpc : Boundary code pc) (hlt : pc < code.length) (h1 : pc ≤ i)
    (h2 : i < pc + width code[pc]) : i = pc := by
  obtain ⟨-, -, hib⟩ := hi
  by_contra hne
  have := Boundary.next_le i hib pc hpc hlt (by omega)
  omega

/-- An instruction that is not a JUMPDEST holds no JUMPDEST a jump lands on. -/
theorem ValidJumpdest.not_lt {code : Bytes} {pc i : Nat} (hi : ValidJumpdest code i)
    (hpc : Boundary code pc) (hlt : pc < code.length) (hop : code[pc] ≠ JUMPDEST)
    (h1 : pc ≤ i) (h2 : i < pc + width code[pc]) : False := by
  obtain rfl := hi.eq_of_lt hpc hlt h1 h2
  obtain ⟨_, hj, -⟩ := hi
  exact hop hj

/-- **The scan marks the JUMPDESTs at boundaries.**  The loop runs from boundary to boundary;
from `pc` on it adds the bits of the JUMPDESTs at the boundaries from `pc`. -/
theorem bitAt_jumpdestsLoop (code : Bytes) (m : List UInt8) (pc : Nat)
    (hm : code.length / 8 < m.length) (hpc : pc < code.length → Boundary code pc) (i : Nat) :
    bitAt (jumpdestsLoop code m pc) i = true ↔
      bitAt m i = true ∨ (pc ≤ i ∧ ValidJumpdest code i) := by
  fun_induction jumpdestsLoop code m pc with
  | case1 m pc hlt op hop ih =>
      -- a JUMPDEST at the boundary `pc`: its bit is set, and the next boundary is `pc + 1`
      have hop : code[pc] = JUMPDEST := hop
      have hb := hpc hlt
      have hw : width code[pc] = 1 := by rw [hop]; exact width_of_not_push JUMPDEST_not_push
      have hnext : pc + 1 < code.length → Boundary code (pc + 1) := fun _ => hw ▸ hb.next hlt
      rw [ih (by simpa using hm) hnext, bitAt_setBit (by omega), Bool.or_eq_true, decide_eq_true_eq]
      constructor
      · rintro ((h | rfl) | ⟨h1, hi⟩)
        · exact .inl h
        · exact .inr ⟨le_rfl, hlt, hop, hb⟩
        · exact .inr ⟨by omega, hi⟩
      · rintro (h | ⟨h1, hi⟩)
        · exact .inl (.inl h)
        · rcases Nat.eq_or_lt_of_le h1 with rfl | h1
          · exact .inl (.inr rfl)
          · exact .inr ⟨h1, hi⟩
  | case2 m pc hlt op hop hpush a ih =>
      -- a push: nothing to mark, and its data holds no boundary
      simp only [op, a] at hop hpush ih
      have hb := hpc hlt
      have hw := width_of_push hpush
      have hnext : pc + (code[pc].toNat - PUSH1.toNat + 1) + 1 < code.length →
          Boundary code (pc + (code[pc].toNat - PUSH1.toNat + 1) + 1) := fun _ => by
        have := hb.next hlt
        rwa [hw, ← Nat.add_assoc] at this
      rw [ih hm hnext]
      constructor
      · rintro (h | ⟨h1, hi⟩)
        · exact .inl h
        · exact .inr ⟨by omega, hi⟩
      · rintro (h | ⟨h1, hi⟩)
        · exact .inl h
        · by_cases h2 : i < pc + width code[pc]
          · exact (hi.not_lt hb hlt hop h1 h2).elim
          · exact .inr ⟨by omega, hi⟩
  | case3 m pc hlt op hop hpush ih =>
      -- another instruction: one byte, not a JUMPDEST
      simp only [op] at hop hpush
      have hb := hpc hlt
      have hw := width_of_not_push hpush
      have hnext : pc + 1 < code.length → Boundary code (pc + 1) := fun _ => hw ▸ hb.next hlt
      rw [ih hm hnext]
      constructor
      · rintro (h | ⟨h1, hi⟩)
        · exact .inl h
        · exact .inr ⟨by omega, hi⟩
      · rintro (h | ⟨h1, hi⟩)
        · exact .inl h
        · by_cases h2 : i < pc + width code[pc]
          · exact (hi.not_lt hb hlt hop h1 h2).elim
          · exact .inr ⟨by omega, hi⟩
  | case4 m pc hge =>
      -- past the end: no JUMPDEST is left to mark
      constructor
      · exact .inl
      · rintro (h | ⟨h1, ⟨hi, -⟩⟩)
        · exact h
        · omega

theorem bitAt_jumpdests (code : Bytes) (i : Nat) :
    bitAt (jumpdests code) i = true ↔ ValidJumpdest code i := by
  rw [jumpdests, bitAt_jumpdestsLoop code _ 0 (by simp) (fun _ => .zero), bitAt_replicate]
  simp

/-! ### Reading the map -/

/-- `destinations`: the bitmaps analysed so far, by code hash.  The map is shared by the
frames of a call tree. -/
abbrev destinations := Bytes → Option (List UInt8)

/-- `destinations.has`: whether `code` has a JUMPDEST at `dest`, with the code's bitmap
computed and stored at `codehash` when it is not there yet.  A destination of 63 bits or
more, or past the code, is never one.  `none` is the panic of a stored bitmap too short for
`dest`. -/
def destinations.has (d : destinations) (codehash code : Bytes) (dest : Int) :
    Option (Bool × destinations) :=
  let udest := Uint64 dest
  if dest.natAbs.size ≥ 63 ∨ udest ≥ code.length then some (false, d)
  else
    let (m, d) : List UInt8 × destinations := match d codehash with
      | some m => (m, d)
      | none => (jumpdests code, Function.update d codehash (some (jumpdests code)))
    m[udest / 8]?.map fun b => ((b &&& (1 <<< (udest % 8).toUInt8)) != 0, d)

/-- The map holds the bitmap of `code` at `codehash`, or nothing there. -/
def destinations.Holds (d : destinations) (codehash code : Bytes) : Prop :=
  ∀ m, d codehash = some m → m = jumpdests code

/-- A destination below `2^62`: one of fewer than 63 bits. -/
theorem size_lt_63_iff (n : Nat) : n.size < 63 ↔ n < 2 ^ 62 := by
  rw [Nat.lt_succ_iff, Nat.size_le]

/-- Reading the bit of a position within the code from the code's bitmap. -/
theorem read_jumpdests (code : Bytes) {udest : Nat} (hlt : udest < code.length)
    (d : destinations) :
    ∃ b, (jumpdests code)[udest / 8]?.map
        (fun b => ((b &&& (1 <<< (udest % 8).toUInt8)) != 0, d)) = some (b, d) ∧
      (b = true ↔ ValidJumpdest code udest) := by
  have hbyte : udest / 8 < (jumpdests code).length := by rw [length_jumpdests]; omega
  rw [List.getElem?_eq_getElem hbyte, Option.map_some,
    and_one_shiftLeft_ne_zero _ (Nat.mod_lt _ (by decide))]
  refine ⟨_, rfl, ?_⟩
  have hbit := bitAt_jumpdests code udest
  rwa [bitAt, List.getD_eq_getElem?_getD, List.getElem?_eq_getElem hbyte, Option.getD_some] at hbit

/-- **What `has` answers**: with the map holding this code's bitmap or nothing at its hash,
`has` holds exactly for a destination below `2^62` that is a JUMPDEST at a boundary, and the
map it leaves still holds the bitmap. -/
theorem has_spec {d : destinations} {codehash code : Bytes} (hd : d.Holds codehash code)
    (dest : Int) :
    ∃ b d', d.has codehash code dest = some (b, d') ∧ d'.Holds codehash code ∧
      (b = true ↔ dest.natAbs < 2 ^ 62 ∧ ValidJumpdest code (Uint64 dest)) := by
  unfold destinations.has
  dsimp only
  by_cases hout : dest.natAbs.size ≥ 63 ∨ Uint64 dest ≥ code.length
  · -- rejected before the bitmap is read
    rw [if_pos hout]
    refine ⟨false, d, rfl, hd, ?_⟩
    simp only [Bool.false_eq_true, false_iff, not_and]
    rintro hsmall ⟨hlt, -⟩
    rw [← size_lt_63_iff] at hsmall
    omega
  · rw [if_neg hout]
    have hsmall : dest.natAbs < 2 ^ 62 := by rw [← size_lt_63_iff]; omega
    have hlt : Uint64 dest < code.length := by omega
    -- the bitmap read is this code's, stored before or computed now
    rcases hm : d codehash with _ | m
    · obtain ⟨b, hb, hiff⟩ := read_jumpdests code hlt
        (Function.update d codehash (some (jumpdests code)))
      refine ⟨b, _, hb, fun m' hm' => ?_, ?_⟩
      · rw [Function.update_self] at hm'
        exact (Option.some.inj hm').symm
      · rw [hiff]
        exact ⟨fun h => ⟨hsmall, h⟩, fun h => h.2⟩
    · obtain ⟨b, hb, hiff⟩ := read_jumpdests code hlt d
      refine ⟨b, d, ?_, hd, ?_⟩
      · rw [hd m hm]
        exact hb
      · rw [hiff]
        exact ⟨fun h => ⟨hsmall, h⟩, fun h => h.2⟩

/-- Every position of a code of JUMPDESTs is a boundary. -/
theorem boundary_replicate_JUMPDEST (k : Nat) : ∀ n ≤ k, Boundary (List.replicate k JUMPDEST) n
  | 0, _ => .zero
  | n + 1, h => by
      have hlt : n < (List.replicate k JUMPDEST).length := by
        rw [List.length_replicate]
        omega
      have := (boundary_replicate_JUMPDEST k n (by omega)).next hlt
      rwa [List.getElem_replicate, width_of_not_push JUMPDEST_not_push] at this

end Vm
end Ethcore
