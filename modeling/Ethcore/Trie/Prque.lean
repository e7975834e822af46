import Ethcore.Lib.Blocks
import Ethcore.Lib.SliceHeap
import Mathlib

/-!
# The trie's priority queue: `sstack.go` and `prque.go`

`Prque` is `container/heap` over `sstack`, a stack kept in blocks of `blockSize` slots.  The
stack keeps its size, its capacity, the block `active` it writes to and the `offset` in it:
`Push` allocates a block when the stack is full and moves to the next block when the active
one is, and `Pop` moves back a block when the offset runs under.  `Less` and `Swap` reach a
position through its block and its offset.  A priority is of any type `P` whose `<` the heap
compares; the source's `float32` without NaN orders that way.

The refinement comes in two levels.  `sstack.Holds s items` says that the blocks hold `items` in
order and nil after them, with `active` and `offset` pointing past the last: every operation
of the stack is then the list's (`Holds.Push`, `Holds.Pop`, `Holds.Less`, `Holds.Swap`), across
block boundaries, and the heap's sifts over the stack are `SliceHeap`'s over the list.  Over
that, `Prque.Holds p m` says that the queue holds the multiset `m` of value and priority pairs,
and a run of `Push`, `Pop`, `PopItem` and `Reset` is a run of a multiset queue that pops a pair
of greatest priority (`Prque_refines`).
-/

namespace Ethcore
namespace Trie

/-- `blockSize`. -/
def blockSize : Nat := 4096

/-- `item`: a value and its priority. -/
structure item (V P : Type) where
  value : V
  priority : P

/-- The pair a queue hands back. -/
def item.pair {V P : Type} (it : item V P) : V × P := (it.value, it.priority)

/-- `sstack`.  The slice `active` aliases one of the blocks: the model keeps its index. -/
structure sstack (V P : Type) where
  size : Nat
  capacity : Nat
  offset : Nat
  blocks : List (List (Option (item V P)))
  active : Nat

namespace sstack

variable {V P : Type}

/-- `blocks[b][o]`; `none` is the panic of an index out of range. -/
def get (s : sstack V P) (b o : Nat) : Option (Option (item V P)) := s.blocks[b]?.bind (·[o]?)

/-- `blocks[b][o] = x`; `none` is the panic of an index out of range. -/
def set (s : sstack V P) (b o : Nat) (x : Option (item V P)) : Option (sstack V P) :=
  match s.blocks[b]? with
  | some blk => if o < blk.length then some { s with blocks := s.blocks.modify b (·.set o x) } else none
  | none => none

/-- `newSstack`: one block, nothing in it. -/
def newSstack : sstack V P := ⟨0, blockSize, 0, [List.replicate blockSize none], 0⟩

/-- `Push`: a new block when the stack is full, the next block when the active one is, then
the item at the offset. -/
def Push (s : sstack V P) (data : item V P) : Option (sstack V P) :=
  let s : Option (sstack V P) :=
    if s.size = s.capacity then
      some { s with
        blocks := s.blocks ++ [List.replicate blockSize none]
        active := s.blocks.length
        capacity := s.capacity + blockSize
        offset := 0 }
    else if s.offset = blockSize then
      -- `s.active = s.blocks[s.size/blockSize]`
      if s.size / blockSize < s.blocks.length then
        some { s with active := s.size / blockSize, offset := 0 }
      else none
    else some s
  s.bind fun s => (s.set s.active s.offset (some data)).map fun s =>
    { s with offset := s.offset + 1, size := s.size + 1 }

/-- `Pop`: back a block when the offset runs under, then the slot at the offset, cleared.
`heap.Pop`, its only caller, has panicked before on an empty stack. -/
def Pop (s : sstack V P) : Option (Option (item V P) × sstack V P) :=
  if s.size = 0 then none
  else
    let size := s.size - 1
    let cursor : Option (Nat × Nat) :=
      if s.offset = 0 then
        if size / blockSize < s.blocks.length then some (size / blockSize, blockSize - 1) else none
      else some (s.active, s.offset - 1)
    cursor.bind fun (active, offset) => do
      let res ← s.get active offset
      let s ← ({ s with size := size, active := active, offset := offset } : sstack V P).set
        active offset none
      some (res, s)

/-- `Len`. -/
def Len (s : sstack V P) : Nat := s.size

/-- `Less`: the higher priority first; a nil slot is a nil dereference. -/
def Less [LT P] [DecidableRel (α := P) (· < ·)] (s : sstack V P) (i j : Nat) : Option Bool := do
  let a ← s.get (i / blockSize) (i % blockSize)
  let b ← s.get (j / blockSize) (j % blockSize)
  let a ← a
  let b ← b
  some (decide (b.priority < a.priority))

/-- `Swap`. -/
def Swap (s : sstack V P) (i j : Nat) : Option (sstack V P) := do
  let x ← s.get (j / blockSize) (j % blockSize)
  let y ← s.get (i / blockSize) (i % blockSize)
  let s ← s.set (i / blockSize) (i % blockSize) x
  s.set (j / blockSize) (j % blockSize) y

/-- `Reset`. -/
def Reset (_ : sstack V P) : sstack V P := newSstack

end sstack

/-! ### `container/heap` over the stack -/

namespace sstack

variable {V P : Type} [LT P] [DecidableRel (α := P) (· < ·)]

/-- The loop of `up(h, j)`, as `SliceHeap.upLoop`. -/
def up : Nat → sstack V P → Nat → Option (sstack V P)
  | 0, s, _ => some s
  | rounds + 1, s, j =>
    let i := SliceHeap.parent j
    if i = j then some s
    else do
      let l ← s.Less j i
      if !l then some s else do
        let s ← s.Swap i j
        up rounds s i

/-- The child of `i` that `down` compares with `i`: the right one if it is below `n` and
`Less` than the left one. -/
def lesserChild (s : sstack V P) (i n : Nat) : Option Nat :=
  let j1 := 2 * i + 1
  if j1 + 1 < n then do
    let l ← s.Less (j1 + 1) j1
    pure (if l then j1 + 1 else j1)
  else pure j1

/-- The loop of `down(h, i, n)`, as `SliceHeap.downLoop`. -/
def down : Nat → sstack V P → Nat → Nat → Option (sstack V P)
  | 0, s, _, _ => some s
  | rounds + 1, s, i, n =>
    if n ≤ 2 * i + 1 then some s
    else do
      let j ← s.lesserChild i n
      let l ← s.Less j i
      if !l then some s else do
        let s ← s.Swap i j
        down rounds s j n

/-- `heap.Push`. -/
def heapPush (s : sstack V P) (x : item V P) : Option (sstack V P) := do
  let s ← s.Push x
  up (s.Len - 1) s (s.Len - 1)

/-- `heap.Pop`; on an empty stack `Swap(0, -1)` panics. -/
def heapPop (s : sstack V P) : Option (Option (item V P) × sstack V P) :=
  if s.Len = 0 then none
  else do
    let n := s.Len - 1
    let s ← s.Swap 0 n
    let s ← down n s 0 n
    s.Pop

end sstack

/-! ### The queue -/

/-- `Prque`. -/
structure Prque (V P : Type) where
  cont : sstack V P

namespace Prque

variable {V P : Type} [LT P] [DecidableRel (α := P) (· < ·)]

/-- `NewPrque`. -/
def NewPrque : Prque V P := ⟨sstack.newSstack⟩

/-- `Push`. -/
def Push (p : Prque V P) (data : V) (priority : P) : Option (Prque V P) :=
  (p.cont.heapPush ⟨data, priority⟩).map Prque.mk

/-- `Pop`: the value and the priority; a nil item is a nil dereference. -/
def Pop (p : Prque V P) : Option ((V × P) × Prque V P) := do
  let (it, s) ← p.cont.heapPop
  let it ← it
  some ((it.value, it.priority), ⟨s⟩)

/-- `PopItem`: the value only. -/
def PopItem (p : Prque V P) : Option (V × Prque V P) := do
  let (it, s) ← p.cont.heapPop
  let it ← it
  some (it.value, ⟨s⟩)

/-- `Empty`. -/
def Empty (p : Prque V P) : Bool := p.cont.Len = 0

/-- `Size`. -/
def Size (p : Prque V P) : Nat := p.cont.Len

/-- `Reset`. -/
def Reset (_ : Prque V P) : Prque V P := NewPrque

end Prque

/-! ### Runs of calls on the queue -/

/-- A call on the queue. -/
inductive Op (V P : Type) where
  | Push (data : V) (priority : P)
  | Pop
  | PopItem
  | Reset

/-- What a call returns: nothing, the pair of `Pop`, or the value of `PopItem`. -/
inductive Out (V P : Type) where
  | unit
  | pair (value : V) (priority : P)
  | value (value : V)

namespace Op

variable {V P : Type}

/-- Whether the call pops. -/
def pops : Op V P → Bool
  | .Pop | .PopItem => true
  | _ => false

/-- How many pairs a queue of `n` holds after the call. -/
def size (n : Nat) : Op V P → Nat
  | .Push _ _ => n + 1
  | .Pop | .PopItem => n - 1
  | .Reset => 0

end Op

/-- Every call that pops finds the queue non-empty, from a queue of `n` pairs. -/
def popsOk {V P : Type} : Nat → List (Op V P) → Bool
  | _, [] => true
  | n, op :: ops => (!op.pops || 0 < n) && popsOk (op.size n) ops

namespace Prque

variable {V P : Type} [LT P] [DecidableRel (α := P) (· < ·)]

/-- One call on the queue; `none` is a panic. -/
def step (p : Prque V P) : Op V P → Option (Out V P × Prque V P)
  | .Push v pr => (p.Push v pr).map fun p => (.unit, p)
  | .Pop => p.Pop.map fun (e, p) => (.pair e.1 e.2, p)
  | .PopItem => p.PopItem.map fun (v, p) => (.value v, p)
  | .Reset => some (.unit, p.Reset)

/-- Calls one after the other, each on the queue the one before left. -/
def run (p : Prque V P) : List (Op V P) → Option (List (Out V P) × Prque V P)
  | [] => some ([], p)
  | op :: ops => (p.step op).bind fun (o, p) => (p.run ops).map fun (os, p) => (o :: os, p)

end Prque

/-! ### The stack as a flat list -/

theorem blockSize_pos : 0 < blockSize := by decide

namespace sstack

variable {V P : Type}

/-- The stack holds `items`: its blocks, each `blockSize` long, hold them in order and nil
after them, and the block `active` and the `offset` in it point just past the last. -/
structure Holds (s : sstack V P) (items : List (item V P)) : Prop where
  uniform : Blocks.Uniform blockSize s.blocks
  capacity_eq : s.capacity = s.blocks.length * blockSize
  flatten_eq : s.blocks.flatten =
    items.map some ++ List.replicate (s.capacity - items.length) none
  size_eq : s.size = items.length
  cursor : s.size = s.active * blockSize + s.offset
  offset_le : s.offset ≤ blockSize
  active_lt : s.active < s.blocks.length

theorem Holds_newSstack : (newSstack : sstack V P).Holds [] where
  uniform := by
    intro b hb
    rw [newSstack, List.mem_singleton] at hb
    rw [hb, List.length_replicate]
  capacity_eq := (Nat.one_mul _).symm
  flatten_eq := by
    rw [newSstack, List.flatten_singleton, List.map_nil, List.nil_append, List.length_nil,
      Nat.sub_zero]
  size_eq := rfl
  cursor := by rw [newSstack, Nat.zero_mul, Nat.zero_add]
  offset_le := Nat.zero_le _
  active_lt := Nat.zero_lt_one

/-- Reading position `i` through its block reads the flattened blocks there. -/
theorem get_div_mod {s : sstack V P} (hu : Blocks.Uniform blockSize s.blocks) (i : Nat) :
    s.get (i / blockSize) (i % blockSize) = s.blocks.flatten[i]? :=
  (Blocks.getElem?_flatten hu blockSize_pos i).symm

/-- Writing position `i` below the capacity through its block. -/
theorem set_div_mod {s : sstack V P} (hu : Blocks.Uniform blockSize s.blocks) {i : Nat}
    (hi : i < s.blocks.length * blockSize) (x : Option (item V P)) :
    s.set (i / blockSize) (i % blockSize) x =
      some { s with blocks := s.blocks.modify (i / blockSize) (·.set (i % blockSize) x) } := by
  have hb : i / blockSize < s.blocks.length := (Nat.div_lt_iff_lt_mul blockSize_pos).mpr hi
  have ho : i % blockSize < s.blocks[i / blockSize].length := by
    rw [hu _ (List.getElem_mem hb)]
    exact Nat.mod_lt _ blockSize_pos
  unfold set
  rw [List.getElem?_eq_getElem hb]
  exact if_pos ho

/-- Writing over the slot past a list of items. -/
theorem set_length_map_some (l : List (item V P)) (y z : Option (item V P))
    (r : List (Option (item V P))) :
    (l.map some ++ y :: r).set l.length z = l.map some ++ z :: r := by
  rw [List.set_append_right _ _ (by simp), List.length_map, Nat.sub_self, List.set_cons_zero]

namespace Holds

variable {s : sstack V P} {items : List (item V P)}

theorem length_flatten (hs : s.Holds items) : s.blocks.flatten.length = s.capacity := by
  rw [Blocks.length_flatten hs.uniform, hs.capacity_eq]

theorem size_le (hs : s.Holds items) : s.size ≤ s.capacity := by
  have h := hs.length_flatten
  rw [hs.flatten_eq, List.length_append, List.length_map, List.length_replicate] at h
  rw [hs.size_eq]
  omega

/-- Reading a position of the items through its block. -/
theorem get (hs : s.Holds items) {i : Nat} (hi : i < items.length) :
    s.get (i / blockSize) (i % blockSize) = some (some items[i]) := by
  rw [get_div_mod hs.uniform, hs.flatten_eq, List.getElem?_append_left (by simpa using hi),
    List.getElem?_map, List.getElem?_eq_getElem hi, Option.map_some]

/-- The stack with its blocks written over, flattening to as many other items. -/
theorem withBlocks (hs : s.Holds items) {bs : List (List (Option (item V P)))}
    {items' : List (item V P)} (hu : Blocks.Uniform blockSize bs)
    (hl : bs.length = s.blocks.length) (hlen : items'.length = items.length)
    (hf : bs.flatten = items'.map some ++ List.replicate (s.capacity - items.length) none) :
    ({ s with blocks := bs } : sstack V P).Holds items' where
  uniform := hu
  capacity_eq := by
    dsimp only
    rw [hl]
    exact hs.capacity_eq
  flatten_eq := by
    dsimp only
    rw [hlen]
    exact hf
  size_eq := by
    dsimp only
    rw [hlen]
    exact hs.size_eq
  cursor := hs.cursor
  offset_le := hs.offset_le
  active_lt := by
    dsimp only
    rw [hl]
    exact hs.active_lt

/-- Writing an item over a position of the items, through its block. -/
theorem setAt (hs : s.Holds items) {i : Nat} (hi : i < items.length) (x : item V P) :
    ∃ t, s.set (i / blockSize) (i % blockSize) (some x) = some t ∧ t.Holds (items.set i x) := by
  have hic : i < s.blocks.length * blockSize := by
    have := hs.size_le
    rw [hs.capacity_eq, hs.size_eq] at this
    omega
  refine ⟨_, set_div_mod hs.uniform hic (some x),
    hs.withBlocks (hs.uniform.modify_set _ _ _) (List.length_modify ..) (List.length_set ..) ?_⟩
  rw [Blocks.flatten_modify_set hs.uniform blockSize_pos, hs.flatten_eq,
    List.set_append_left _ _ (by simpa using hi), ← List.map_set]

/-- The stack with its cursor moved to another block and offset past the items. -/
theorem withCursor (hs : s.Holds items) {a o : Nat} (hc : s.size = a * blockSize + o)
    (ho : o ≤ blockSize) (ha : a < s.blocks.length) :
    ({ s with active := a, offset := o } : sstack V P).Holds items where
  uniform := hs.uniform
  capacity_eq := hs.capacity_eq
  flatten_eq := hs.flatten_eq
  size_eq := hs.size_eq
  cursor := hc
  offset_le := ho
  active_lt := ha

/-- The stack with a new empty block, the cursor at its start: the first step of `Push` on a
full stack. -/
theorem grow (hs : s.Holds items) (hfull : s.size = s.capacity) :
    ({ s with
        blocks := s.blocks ++ [List.replicate blockSize none]
        active := s.blocks.length
        capacity := s.capacity + blockSize
        offset := 0 } : sstack V P).Holds items where
  uniform := by
    refine hs.uniform.append fun b hb => ?_
    rw [List.mem_singleton] at hb
    rw [hb, List.length_replicate]
  capacity_eq := by
    dsimp only
    rw [List.length_append, List.length_singleton, Nat.succ_mul, hs.capacity_eq]
  flatten_eq := by
    dsimp only
    have hnone : s.capacity - items.length = 0 := by
      rw [← hs.size_eq, hfull, Nat.sub_self]
    rw [List.flatten_append, List.flatten_singleton, hs.flatten_eq, hnone, List.replicate_zero,
      List.append_nil, ← hs.size_eq, hfull, Nat.add_sub_cancel_left]
  size_eq := hs.size_eq
  cursor := by
    dsimp only
    rw [Nat.add_zero, hfull, hs.capacity_eq]
  offset_le := Nat.zero_le _
  active_lt := by
    dsimp only
    rw [List.length_append, List.length_singleton]
    exact Nat.lt_succ_self _

/-- The write of `Push` at a cursor inside its block: the item goes past the others. -/
theorem write (hs : s.Holds items) (hoff : s.offset < blockSize) (x : item V P) :
    ∃ t, (s.set s.active s.offset (some x)).map
        (fun s => { s with offset := s.offset + 1, size := s.size + 1 }) = some t ∧
      t.Holds (items ++ [x]) := by
  have hcur := hs.cursor
  have hsize := hs.size_eq
  -- the cursor is the position past the items, below the capacity
  have hlt : s.size < s.blocks.length * blockSize := by
    have : (s.active + 1) * blockSize ≤ s.blocks.length * blockSize :=
      Nat.mul_le_mul_right _ hs.active_lt
    rw [Nat.succ_mul] at this
    omega
  have hdiv : s.size / blockSize = s.active := by
    rw [hcur, Nat.add_comm, Nat.add_mul_div_right _ _ blockSize_pos, Nat.div_eq_of_lt hoff,
      Nat.zero_add]
  have hmod : s.size % blockSize = s.offset := by
    rw [hcur, Nat.add_comm, Nat.add_mul_mod_self_right, Nat.mod_eq_of_lt hoff]
  rw [← hdiv, ← hmod, set_div_mod hs.uniform hlt, Option.map_some]
  refine ⟨_, rfl, ?_⟩
  -- the slot past the items was nil, so there is one to take
  obtain ⟨k, hk⟩ : ∃ k, s.capacity - items.length = k + 1 :=
    ⟨s.capacity - items.length - 1, by rw [hs.capacity_eq]; omega⟩
  exact {
    uniform := hs.uniform.modify_set _ _ _
    capacity_eq := by
      dsimp only
      rw [List.length_modify]
      exact hs.capacity_eq
    flatten_eq := by
      dsimp only
      rw [Blocks.flatten_modify_set hs.uniform blockSize_pos, hs.flatten_eq, hk,
        List.replicate_succ, hsize, set_length_map_some, List.length_append,
        List.length_singleton, show s.capacity - (items.length + 1) = k by omega,
        List.map_append, List.map_singleton, List.append_assoc, List.singleton_append]
    size_eq := by
      dsimp only
      rw [hsize, List.length_append, List.length_singleton]
    cursor := by
      dsimp only
      omega
    offset_le := hoff
    active_lt := by
      dsimp only
      rw [List.length_modify]
      exact hs.active_lt }

/-- `Push` is the list's append, whether it takes a new block, moves to the next one or
stays in the active one. -/
theorem Push (hs : s.Holds items) (x : item V P) :
    ∃ t, s.Push x = some t ∧ t.Holds (items ++ [x]) := by
  have hle := hs.size_le
  unfold sstack.Push
  dsimp only
  split_ifs with hfull hend hnext
  · -- a full stack: a new block
    rw [Option.bind_some]
    exact (hs.grow hfull).write blockSize_pos x
  · -- the active block is full: the next one
    have hsucc : s.size = (s.active + 1) * blockSize := by
      have hcur := hs.cursor
      rw [hend] at hcur
      rw [Nat.succ_mul]
      exact hcur
    have hdiv : s.size / blockSize = s.active + 1 := by
      rw [hsucc, Nat.mul_div_cancel _ blockSize_pos]
    have hcur : s.size = s.size / blockSize * blockSize + 0 := by
      rw [hdiv, ← hsucc, Nat.add_zero]
    rw [Option.bind_some]
    exact (hs.withCursor hcur (Nat.zero_le _) hnext).write blockSize_pos x
  · -- the next block is there, as the stack is not full
    exfalso
    apply hnext
    rw [Nat.div_lt_iff_lt_mul blockSize_pos, ← hs.capacity_eq]
    omega
  · rw [Option.bind_some]
    exact hs.write (Nat.lt_of_le_of_ne hs.offset_le hend) x

/-- `Pop` is the list's removal of its last item, whether its cursor moves back a block or
stays in the active one. -/
theorem Pop {x : item V P} (hs : s.Holds (items ++ [x])) :
    ∃ t, s.Pop = some (some x, t) ∧ t.Holds items := by
  have hsize : s.size = items.length + 1 := by
    rw [hs.size_eq, List.length_append, List.length_singleton]
  have hlt : items.length < s.blocks.length * blockSize := by
    have := hs.size_le
    rw [hs.capacity_eq] at this
    omega
  have hb : items.length / blockSize < s.blocks.length :=
    (Nat.div_lt_iff_lt_mul blockSize_pos).mpr hlt
  -- both ways of moving the cursor back land on the last item
  have hcursor : (if s.offset = 0 then
        if (s.size - 1) / blockSize < s.blocks.length then
          some ((s.size - 1) / blockSize, blockSize - 1) else none
      else some (s.active, s.offset - 1)) =
      some (items.length / blockSize, items.length % blockSize) := by
    have hcur := hs.cursor
    have hoff := hs.offset_le
    rw [hsize, Nat.add_sub_cancel]
    unfold blockSize at hcur hoff ⊢
    split_ifs with h0 hnext
    · rw [Option.some.injEq, Prod.mk.injEq]
      omega
    · exact hnext hb
    · rw [Option.some.injEq, Prod.mk.injEq]
      omega
  unfold sstack.Pop
  rw [if_neg (by omega)]
  dsimp only
  rw [hcursor, Option.bind_some]
  dsimp only
  rw [get_div_mod hs.uniform, hs.flatten_eq, List.getElem?_append_left (by simp),
    List.map_append, List.map_singleton, List.getElem?_append_right (by simp), List.length_map,
    Nat.sub_self, List.getElem?_singleton, if_pos rfl, Option.bind_eq_bind, Option.bind_some,
    hsize, Nat.add_sub_cancel]
  rw [set_div_mod (s := { s with
      size := items.length
      active := items.length / blockSize
      offset := items.length % blockSize }) hs.uniform hlt none, Option.bind_eq_bind,
    Option.bind_some]
  refine ⟨_, rfl, ?_⟩
  have hk : s.capacity - items.length = s.capacity - (items ++ [x]).length + 1 := by
    have := hs.size_le
    rw [List.length_append, List.length_singleton]
    omega
  exact {
    uniform := hs.uniform.modify_set _ _ _
    capacity_eq := by
      dsimp only
      rw [List.length_modify]
      exact hs.capacity_eq
    flatten_eq := by
      dsimp only
      rw [Blocks.flatten_modify_set hs.uniform blockSize_pos, hs.flatten_eq, hk,
        List.replicate_succ, List.map_append, List.map_singleton, List.append_assoc,
        List.singleton_append, set_length_map_some]
    size_eq := rfl
    cursor := (Nat.div_add_mod' _ _).symm
    offset_le := Nat.le_of_lt (Nat.mod_lt _ blockSize_pos)
    active_lt := by
      dsimp only
      rw [List.length_modify]
      exact hb }

end Holds

/-- The order `Less` compares items by: the higher priority first. -/
def higher [LT P] [DecidableRel (α := P) (· < ·)] (a b : item V P) : Bool :=
  decide (b.priority < a.priority)

namespace Holds

variable {s : sstack V P} {items : List (item V P)}

/-- `Less` of two positions of the items is the slice heap's `Less` of the list. -/
theorem Less [LT P] [DecidableRel (α := P) (· < ·)] (hs : s.Holds items) {i j : Nat}
    (hi : i < items.length) (hj : j < items.length) :
    s.Less i j = some (SliceHeap.lessAt higher items i j) := by
  unfold sstack.Less
  rw [hs.get hi, hs.get hj,
    SliceHeap.lessAt_eq (List.getElem?_eq_getElem hi) (List.getElem?_eq_getElem hj)]
  rfl

/-- `Swap` of two positions of the items is the slice heap's `Swap` of the list. -/
theorem Swap (hs : s.Holds items) {i j : Nat} (hi : i < items.length) (hj : j < items.length) :
    ∃ t, s.Swap i j = some t ∧ t.Holds (SliceHeap.swap items i j) := by
  obtain ⟨t1, ht1, hs1⟩ := hs.setAt hi items[j]
  obtain ⟨t2, ht2, hs2⟩ := hs1.setAt (by rwa [List.length_set]) items[i]
  refine ⟨t2, ?_, ?_⟩
  · unfold sstack.Swap
    rw [hs.get hj, hs.get hi]
    simp only [Option.bind_eq_bind, Option.bind_some]
    rw [ht1]
    exact ht2
  · unfold SliceHeap.swap
    rw [List.getElem?_eq_getElem hi, List.getElem?_eq_getElem hj]
    exact hs2

end Holds

/-! ### The sifts over the stack -/

namespace Holds

variable [LT P] [DecidableRel (α := P) (· < ·)] {s : sstack V P} {items : List (item V P)}

/-- `up` over the stack is `SliceHeap.upLoop` over its items. -/
theorem up (rounds : Nat) (hs : s.Holds items) {j : Nat} (hj : j < items.length) :
    ∃ t, sstack.up rounds s j = some t ∧ t.Holds (SliceHeap.upLoop higher rounds items j) := by
  induction rounds generalizing s items j with
  | zero => exact ⟨s, rfl, hs⟩
  | succ rounds ih =>
    have hi : SliceHeap.parent j < items.length := by
      unfold SliceHeap.parent
      omega
    unfold sstack.up SliceHeap.upLoop
    dsimp only
    by_cases hij : SliceHeap.parent j = j
    · rw [if_pos hij, if_pos (Or.inl hij)]
      exact ⟨s, rfl, hs⟩
    rw [if_neg hij, hs.Less hj hi, Option.bind_eq_bind, Option.bind_some]
    cases hl : SliceHeap.lessAt higher items j (SliceHeap.parent j)
    · -- not less than its parent: the sift stops
      rw [if_pos (Or.inr rfl)]
      exact ⟨s, rfl, hs⟩
    · -- less than its parent: swap them and go on from the parent
      rw [if_neg (show ¬(SliceHeap.parent j = j ∨ true = false) by simp [hij])]
      obtain ⟨t, ht, hts⟩ := hs.Swap hi hj
      obtain ⟨u, hu, hus⟩ := ih hts (by rwa [SliceHeap.length_swap])
      refine ⟨u, ?_, hus⟩
      rw [Bool.not_true, if_neg Bool.false_ne_true, Option.bind_eq_bind, ht, Option.bind_some]
      exact hu

/-- The child `down` picks over the stack is `SliceHeap.lesserChild` of its items. -/
theorem lesserChild (hs : s.Holds items) {i n : Nat} (hn : n ≤ items.length) :
    s.lesserChild i n = some (SliceHeap.lesserChild higher items i n) := by
  unfold sstack.lesserChild SliceHeap.lesserChild
  dsimp only
  by_cases h2 : 2 * i + 1 + 1 < n
  · rw [if_pos h2, hs.Less (by omega) (by omega), Option.bind_eq_bind, Option.bind_some]
    cases SliceHeap.lessAt higher items (2 * i + 1 + 1) (2 * i + 1) <;> simp [h2]
  · rw [if_neg h2, if_neg (fun h => h2 h.1)]
    rfl

/-- `down` over the stack is `SliceHeap.downLoop` over its items. -/
theorem down (rounds : Nat) (hs : s.Holds items) {i n : Nat} (hn : n ≤ items.length) :
    ∃ t, sstack.down rounds s i n = some t ∧
      t.Holds (SliceHeap.downLoop higher rounds items i n) := by
  induction rounds generalizing s items i with
  | zero => exact ⟨s, rfl, hs⟩
  | succ rounds ih =>
    unfold sstack.down SliceHeap.downLoop
    by_cases hni : n ≤ 2 * i + 1
    · rw [if_pos hni, if_pos hni]
      exact ⟨s, rfl, hs⟩
    have hin : 2 * i + 1 < n := Nat.lt_of_not_le hni
    have hj : SliceHeap.lesserChild higher items i n < n := SliceHeap.lesserChild_lt hin
    have hij := SliceHeap.lt_lesserChild higher items i n
    rw [if_neg hni, if_neg hni, hs.lesserChild hn, Option.bind_eq_bind, Option.bind_some,
      hs.Less (by omega) (by omega), Option.bind_eq_bind, Option.bind_some]
    dsimp only
    cases hl : SliceHeap.lessAt higher items (SliceHeap.lesserChild higher items i n) i
    · -- the child is not less: the sift stops
      rw [Bool.not_false, if_pos rfl]
      exact ⟨s, rfl, hs⟩
    · -- swap with the child and go on from there
      obtain ⟨t, ht, hts⟩ :=
        hs.Swap (i := i) (j := SliceHeap.lesserChild higher items i n) (by omega) (by omega)
      obtain ⟨u, hu, hus⟩ := ih hts (by rwa [SliceHeap.length_swap])
      refine ⟨u, ?_, hus⟩
      rw [Bool.not_true, if_neg Bool.false_ne_true, Option.bind_eq_bind, ht, Option.bind_some]
      exact hu

/-- `heap.Push` over the stack is `SliceHeap.Push` over its items. -/
theorem heapPush (hs : s.Holds items) (x : item V P) :
    ∃ t, s.heapPush x = some t ∧ t.Holds (SliceHeap.Push higher items x) := by
  obtain ⟨t, ht, hts⟩ := hs.Push x
  have hlen : t.Len - 1 = items.length := by
    rw [sstack.Len, hts.size_eq, List.length_append, List.length_singleton, Nat.add_sub_cancel]
  unfold sstack.heapPush
  rw [ht, Option.bind_eq_bind, Option.bind_some, hlen]
  exact hts.up items.length (by simp)

/-- `heap.Pop` over the stack is `SliceHeap.Pop` over its items. -/
theorem heapPop (hs : s.Holds items) {x : item V P} {rest : List (item V P)}
    (hp : SliceHeap.Pop higher items = some (x, rest)) :
    ∃ t, s.heapPop = some (some x, t) ∧ t.Holds rest := by
  have hne : items ≠ [] := fun h => by
    rw [← SliceHeap.Pop_eq_none_iff] at h
    rw [h] at hp
    exact Option.some_ne_none _ hp.symm
  have hlen : 0 < items.length := List.length_pos_iff.mpr hne
  unfold SliceHeap.Pop at hp
  rw [if_neg hne] at hp
  dsimp only at hp
  generalize hh2 : SliceHeap.down higher (SliceHeap.swap items 0 (items.length - 1)) 0
    (items.length - 1) = h2 at hp
  -- the sifted list ends with the popped item
  obtain ⟨y, hy, hxy⟩ := Option.map_eq_some_iff.mp hp
  rw [Prod.mk.injEq] at hxy
  obtain ⟨rfl, rfl⟩ := hxy
  have hsplit : h2 = h2.dropLast ++ [y] := (List.dropLast_append_getLast? y hy).symm
  obtain ⟨t1, ht1, hs1⟩ := hs.Swap hlen (Nat.sub_lt hlen Nat.zero_lt_one)
  obtain ⟨t2, ht2, hs2⟩ := hs1.down (items.length - 1) (i := 0) (n := items.length - 1)
    (by rw [SliceHeap.length_swap]; exact Nat.sub_le _ _)
  rw [← SliceHeap.down, hh2, hsplit] at hs2
  obtain ⟨t3, ht3, hs3⟩ := hs2.Pop
  refine ⟨t3, ?_, hs3⟩
  unfold sstack.heapPop
  rw [sstack.Len, hs.size_eq, if_neg (Nat.pos_iff_ne_zero.mp hlen)]
  dsimp only
  rw [ht1, Option.bind_eq_bind, Option.bind_some, ht2, Option.bind_some]
  exact ht3

end Holds

end sstack

/-! ### The queue as a multiset -/

/-- A queue of pairs as the calls mean it: a multiset, popped at a pair of greatest priority. -/
inductive MultisetStep {V P : Type} [LT P] :
    Multiset (V × P) → Op V P → Out V P → Multiset (V × P) → Prop
  | push (m : Multiset (V × P)) (v : V) (pr : P) :
      MultisetStep m (.Push v pr) .unit ((v, pr) ::ₘ m)
  | pop (m : Multiset (V × P)) (v : V) (pr : P) (hmax : ∀ e ∈ m, ¬ pr < e.2) :
      MultisetStep ((v, pr) ::ₘ m) .Pop (.pair v pr) m
  | popItem (m : Multiset (V × P)) (v : V) (pr : P) (hmax : ∀ e ∈ m, ¬ pr < e.2) :
      MultisetStep ((v, pr) ::ₘ m) .PopItem (.value v) m
  | reset (m : Multiset (V × P)) : MultisetStep m .Reset .unit 0

/-- Calls one after the other on the multiset queue. -/
inductive MultisetRun {V P : Type} [LT P] :
    Multiset (V × P) → List (Op V P) → List (Out V P) → Multiset (V × P) → Prop
  | nil (m : Multiset (V × P)) : MultisetRun m [] [] m
  | cons {m m' m'' : Multiset (V × P)} {op : Op V P} {o : Out V P} {ops : List (Op V P)}
      {os : List (Out V P)} :
      MultisetStep m op o m' → MultisetRun m' ops os m'' → MultisetRun m (op :: ops) (o :: os) m''

/-- The multiset queue holds as many pairs after a call as `Op.size` counts. -/
theorem MultisetStep.card {V P : Type} [LT P] {m m' : Multiset (V × P)} {op : Op V P}
    {o : Out V P} (h : MultisetStep m op o m') : Multiset.card m' = op.size (Multiset.card m) := by
  cases h with
  | push => rw [Multiset.card_cons, Op.size]
  | pop => rw [Multiset.card_cons, Op.size, Nat.add_sub_cancel]
  | popItem => rw [Multiset.card_cons, Op.size, Nat.add_sub_cancel]
  | reset => rw [Multiset.card_zero, Op.size]

/-- A linear order of the priorities is an order the heap can use. -/
theorem strictWeak_higher {V P : Type} [LinearOrder P] :
    SliceHeap.StrictWeak (sstack.higher (V := V) (P := P)) where
  asymm a b h := by
    simp only [sstack.higher, decide_eq_true_eq, decide_eq_false_iff_not] at h ⊢
    exact lt_asymm h
  trans a b c hab hbc := by
    simp only [sstack.higher, decide_eq_true_eq] at hab hbc ⊢
    exact lt_trans hbc hab
  not_trans a b c hab hbc := by
    simp only [sstack.higher, decide_eq_false_iff_not, not_lt] at hab hbc ⊢
    exact le_trans hab hbc

namespace Prque

variable {V P : Type} [LT P] [DecidableRel (α := P) (· < ·)]

/-- The queue holds the pairs `m`: its stack holds a heap of items whose pairs are `m`. -/
def Holds (p : Prque V P) (m : Multiset (V × P)) : Prop :=
  ∃ items, p.cont.Holds items ∧ SliceHeap.IsHeap sstack.higher items ∧
    ((items.map item.pair : List (V × P)) : Multiset (V × P)) = m

theorem Holds_NewPrque : (NewPrque : Prque V P).Holds 0 :=
  ⟨[], sstack.Holds_newSstack, fun _ _ hc _ => absurd hc (Nat.not_lt_zero _), rfl⟩

namespace Holds

variable {p : Prque V P} {m : Multiset (V × P)}

theorem Size (hp : p.Holds m) : p.Size = Multiset.card m := by
  obtain ⟨items, hs, -, rfl⟩ := hp
  rw [Prque.Size, sstack.Len, hs.size_eq, Multiset.coe_card, List.length_map]

theorem Empty (hp : p.Holds m) : p.Empty = true ↔ m = 0 := by
  rw [Prque.Empty, decide_eq_true_iff, ← Prque.Size, hp.Size, Multiset.card_eq_zero]

section Order

variable (hless : SliceHeap.StrictWeak (sstack.higher (V := V) (P := P)))
include hless

theorem Push (hp : p.Holds m) (v : V) (pr : P) :
    ∃ p', p.Push v pr = some p' ∧ p'.Holds ((v, pr) ::ₘ m) := by
  obtain ⟨items, hs, hheap, rfl⟩ := hp
  obtain ⟨t, ht, hts⟩ := hs.heapPush ⟨v, pr⟩
  refine ⟨⟨t⟩, by rw [Prque.Push, ht, Option.map_some], _, hts,
    SliceHeap.Push_heap hless hheap _, ?_⟩
  -- the heap's `Push` permutes the items with the new one appended
  rw [Multiset.cons_coe, Multiset.coe_eq_coe]
  refine ((SliceHeap.Push_perm items _).map item.pair).trans ?_
  rw [List.map_append, List.map_singleton]
  exact List.perm_append_singleton _ _

/-- `heap.Pop` of the queue's stack takes an item no other has a greater priority than. -/
theorem heapPop (hp : p.Holds m) (hm : m ≠ 0) :
    ∃ x t m', p.cont.heapPop = some (some x, t) ∧ m = x.pair ::ₘ m' ∧
      (∀ e ∈ m', ¬ x.priority < e.2) ∧ (⟨t⟩ : Prque V P).Holds m' := by
  obtain ⟨items, hs, hheap, rfl⟩ := hp
  have hne : items ≠ [] := by
    rintro rfl
    exact hm rfl
  obtain ⟨x, rest, hpop, hperm, hrest, hmax⟩ := SliceHeap.Pop_spec hless hheap hne
  obtain ⟨t, ht, hts⟩ := hs.heapPop hpop
  refine ⟨x, t, _, ht, ?_, ?_, rest, hts, hrest, rfl⟩
  · rw [← Multiset.coe_eq_coe.mpr (hperm.map item.pair), List.map_cons, Multiset.cons_coe]
  · -- no item is higher than the root
    intro e he
    obtain ⟨y, hy, rfl⟩ := List.mem_map.mp (Multiset.mem_coe.mp he)
    have hxy := hmax y (hperm.subset (List.mem_cons_of_mem x hy))
    rw [sstack.higher, decide_eq_false_iff_not] at hxy
    exact hxy

theorem Pop (hp : p.Holds m) (hm : m ≠ 0) :
    ∃ v pr p' m', p.Pop = some ((v, pr), p') ∧ m = (v, pr) ::ₘ m' ∧
      (∀ e ∈ m', ¬ pr < e.2) ∧ p'.Holds m' := by
  obtain ⟨x, t, m', ht, hm', hmax, hts⟩ := hp.heapPop hless hm
  exact ⟨x.value, x.priority, ⟨t⟩, m', by rw [Prque.Pop, ht]; rfl, hm', hmax, hts⟩

theorem PopItem (hp : p.Holds m) (hm : m ≠ 0) :
    ∃ v pr p' m', p.PopItem = some (v, p') ∧ m = (v, pr) ::ₘ m' ∧
      (∀ e ∈ m', ¬ pr < e.2) ∧ p'.Holds m' := by
  obtain ⟨x, t, m', ht, hm', hmax, hts⟩ := hp.heapPop hless hm
  exact ⟨x.value, x.priority, ⟨t⟩, m', by rw [Prque.PopItem, ht]; rfl, hm', hmax, hts⟩

/-- One call on a queue that holds pairs is a call on the multiset queue. -/
theorem step (hp : p.Holds m) (op : Op V P) (hop : op.pops = true → m ≠ 0) :
    ∃ o p' m', p.step op = some (o, p') ∧ MultisetStep m op o m' ∧ p'.Holds m' := by
  cases op with
  | Push v pr =>
    obtain ⟨p', hp', hh⟩ := hp.Push hless v pr
    exact ⟨.unit, p', _, by rw [Prque.step, hp', Option.map_some], .push m v pr, hh⟩
  | Pop =>
    obtain ⟨v, pr, p', m', hp', rfl, hmax, hh⟩ := hp.Pop hless (hop rfl)
    exact ⟨.pair v pr, p', m', by rw [Prque.step, hp', Option.map_some], .pop m' v pr hmax, hh⟩
  | PopItem =>
    obtain ⟨v, pr, p', m', hp', rfl, hmax, hh⟩ := hp.PopItem hless (hop rfl)
    exact ⟨.value v, p', m', by rw [Prque.step, hp', Option.map_some], .popItem m' v pr hmax, hh⟩
  | Reset => exact ⟨.unit, p.Reset, 0, rfl, .reset m, Holds_NewPrque⟩

/-- A run of calls that pop only a non-empty queue is a run of the multiset queue; the run
is on the ops, with the queue and the multiset generalised. -/
theorem run (hp : p.Holds m) (ops : List (Op V P))
    (hops : popsOk (Multiset.card m) ops = true) :
    ∃ os p' m', p.run ops = some (os, p') ∧ MultisetRun m ops os m' ∧ p'.Holds m' := by
  induction ops generalizing p m with
  | nil => exact ⟨[], p, m, rfl, .nil m, hp⟩
  | cons op ops ih =>
    rw [popsOk, Bool.and_eq_true, Bool.or_eq_true, Bool.not_eq_true', decide_eq_true_eq] at hops
    obtain ⟨hpop, hrest⟩ := hops
    have hop : op.pops = true → m ≠ 0 := fun h hm0 => by
      rw [hm0, Multiset.card_zero] at hpop
      rcases hpop with hf | hlt
      · exact absurd (h.symm.trans hf) (by decide)
      · exact Nat.lt_irrefl 0 hlt
    obtain ⟨o, p', m', hstep, habs, hh⟩ := hp.step hless op hop
    rw [← habs.card] at hrest
    obtain ⟨os, p'', m'', hrun, habs', hh'⟩ := ih hh hrest
    refine ⟨o :: os, p'', m'', ?_, .cons habs habs', hh'⟩
    rw [Prque.run, hstep, Option.bind_some]
    dsimp only
    rw [hrun, Option.map_some]

end Order

end Holds

end Prque

/-- The trie's priority queue refines a multiset queue of pairs.  From `NewPrque`, a run of
calls that pop only a non-empty queue returns what the multiset queue may return: each `Pop`
and `PopItem` a pair no remaining pair has a greater priority than.  It leaves a queue that
holds the multiset's pairs, and `Size` is their number.  Beneath it the stack of blocks is a
flat list: a new stack holds nothing, and from any stack that holds items, `Push`, `Pop`,
`Len`, `Less` and `Swap` are the list's, across block boundaries. -/
theorem Prque_refines {V P : Type} [LT P] [DecidableRel (α := P) (· < ·)]
    (hless : SliceHeap.StrictWeak (sstack.higher (V := V) (P := P)))
    (ops : List (Op V P)) (hops : popsOk 0 ops = true) :
    (∃ os p m, Prque.NewPrque.run ops = some (os, p) ∧ MultisetRun 0 ops os m ∧ p.Holds m ∧
      p.Size = Multiset.card m) ∧
    (sstack.newSstack : sstack V P).Holds [] ∧
    ∀ (s : sstack V P) (items : List (item V P)), s.Holds items →
      (∀ x, ∃ t, s.Push x = some t ∧ t.Holds (items ++ [x])) ∧
      (∀ rest x, items = rest ++ [x] → ∃ t, s.Pop = some (some x, t) ∧ t.Holds rest) ∧
      s.Len = items.length ∧
      (∀ i j, i < items.length → j < items.length →
        s.Less i j = some (SliceHeap.lessAt sstack.higher items i j)) ∧
      (∀ i j, i < items.length → j < items.length →
        ∃ t, s.Swap i j = some t ∧ t.Holds (SliceHeap.swap items i j)) := by
  refine ⟨?_, sstack.Holds_newSstack, fun s items hs => ⟨hs.Push, ?_, hs.size_eq,
    fun i j hi hj => hs.Less hi hj, fun i j hi hj => hs.Swap hi hj⟩⟩
  · obtain ⟨os, p, m, hrun, habs, hh⟩ := Prque.Holds_NewPrque.run hless ops hops
    exact ⟨os, p, m, hrun, habs, hh, hh.Size⟩
  · rintro rest x rfl
    exact hs.Pop

theorem Prque_refines_push_push_pop :
    SliceHeap.StrictWeak (sstack.higher (V := Nat) (P := Nat)) ∧
      popsOk 0 [Op.Push 1 5, Op.Push 2 7, Op.Pop] = true ∧
      ∃ os p m, Prque.NewPrque.run [Op.Push 1 5, Op.Push 2 7, Op.Pop] = some (os, p) ∧
        MultisetRun 0 [Op.Push 1 5, Op.Push 2 7, Op.Pop] os m ∧ p.Holds m ∧
        p.Size = Multiset.card m :=
  ⟨strictWeak_higher, rfl, (Prque_refines strictWeak_higher _ rfl).1⟩

end Trie
end Ethcore
