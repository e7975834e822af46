import Ethcore.Discover.Table
import Mathlib.Data.List.Nodup

/-!
# Random nodes of the table: `Table.ReadRandomNodes`

`ReadRandomNodes` copies nodes of the table into a buffer.  It takes the entries of the
non-empty buckets, shuffles the buckets, and then moves the head of one bucket after another
into the buffer, dropping a bucket once it is exhausted, until the buffer is full or the
buckets are.

What it writes is a part of the table's entries, taken once each, and all of them when the
buffer has room: the nodes written and the nodes left in the buckets are always a permutation of
the table's entries, whatever order the shuffle chose (`fill_spec`).  So ids distinct in the
table are distinct in the buffer.

The count it returns is the loop index plus one.  That is the number written when the loop
leaves by the `break` after the last entry, and one more than written when it leaves because
the buffer is full: a buffer shorter than the table, the empty one included, gets back its
length plus one (`ReadRandomNodes_spec`).

The random words are a parameter: `rand i` is the word `randUint` reads at the shuffle step of
index `i`, and every result holds for every choice of them.
-/

namespace Ethcore
namespace Discover

variable {α : Type}

/-! ### The two loops -/

/-- `randUint`: a random word reduced below `max`, and `0` for `max = 0`. -/
def randUint (max word : UInt32) : UInt32 :=
  if max = 0 then 0 else word % max

/-- `buckets[i], buckets[j] = buckets[j], buckets[i]`, which panics out of range. -/
def swapAt (l : List α) (i j : Nat) : Option (List α) := do
  let a ← l[i]?
  let b ← l[j]?
  pure ((l.set i b).set j a)

/-- The shuffle of `ReadRandomNodes`, from index `i` down to `1`: swap index `i` with
`randUint(i)`. -/
def shuffle (rand : Nat → UInt32) (l : List α) : Nat → Option (List α)
  | 0 => some l
  | i + 1 => do
    let j := (randUint (UInt32.ofNat (i + 1)) (rand (i + 1))).toNat
    let l ← swapAt l (i + 1) j
    shuffle rand l i

/-- `buckets[j] = b[1:]`, and the bucket removed once it held one node. -/
def dropHead (buckets : List (List α)) (j : Nat) (b : List α) : List (List α) :=
  let buckets := buckets.set j (b.drop 1)
  if b.length = 1 then buckets.eraseIdx j else buckets

/-- The copy loop of `ReadRandomNodes` with `k` slots of the buffer left from `i`: write the
head of bucket `j` at `i`, drop it, and stop after the write that empties the last bucket.  The
value is `i + 1` at either exit. -/
def fill (buckets : List (List α)) (buf : List α) (i j : Nat) : Nat → Option (Nat × List α)
  | 0 => some (i + 1, buf)
  | k + 1 => do
    let b ← buckets[j]?
    let n ← b[0]?
    let buf := buf.set i n
    let buckets := dropHead buckets j b
    if buckets.length = 0 then some (i + 1, buf)
    else fill buckets buf (i + 1) ((j + 1) % buckets.length) k

/-- The entries of all buckets, in the order of the buckets. -/
def Table.allEntries (tab : Table) : List Node :=
  ((List.range nBuckets.toNat).map fun k => (tab.buckets k).entries).flatten

/-- `ReadRandomNodes`, given whether the first refresh is done and the random words. -/
def Table.ReadRandomNodes (tab : Table) (initDone : Bool) (rand : Nat → UInt32)
    (buf : List Node) : Option (Nat × List Node) :=
  if !initDone then some (0, buf)
  else
    let buckets := ((List.range nBuckets.toNat).map fun k => (tab.buckets k).entries).filter
      fun b => 0 < b.length
    if buckets.length = 0 then some (0, buf)
    else do
      let buckets ← shuffle rand buckets (buckets.length - 1)
      fill buckets buf 0 0 buf.length

/-! ### The shuffle is a permutation -/

theorem randUint_lt {n : Nat} (hn : 0 < n) (word : UInt32) :
    (randUint (UInt32.ofNat n) word).toNat < n := by
  unfold randUint
  split_ifs with h
  · simpa using hn
  · have hm : (UInt32.ofNat n).toNat ≠ 0 := fun h0 => h (UInt32.toNat_inj.mp (by simpa using h0))
    rw [UInt32.toNat_mod]
    calc word.toNat % (UInt32.ofNat n).toNat < (UInt32.ofNat n).toNat := Nat.mod_lt _ (by omega)
      _ ≤ n := by rw [UInt32.toNat_ofNat']; exact Nat.mod_le _ _

theorem swapAt_perm {l : List α} {i j : Nat} (hi : i < l.length) (hj : j < l.length) :
    ∃ l', swapAt l i j = some l' ∧ l'.Perm l :=
  ⟨_, by simp [swapAt, List.getElem?_eq_getElem hi, List.getElem?_eq_getElem hj],
    List.set_set_perm hi hj⟩

/-- Every shuffle of the buckets is a permutation of them, whatever the random words. -/
theorem shuffle_perm (rand : Nat → UInt32) :
    ∀ (i : Nat) (l : List α), i < l.length → ∃ l', shuffle rand l i = some l' ∧ l'.Perm l := by
  intro i
  induction i with
  | zero => intro l _; exact ⟨l, rfl, .rfl⟩
  | succ i ih =>
    intro l hi
    -- the index drawn is below `i + 1`, whatever the word
    have hj := (randUint_lt (Nat.succ_pos i) (rand (i + 1))).trans hi
    obtain ⟨l1, hswap, hp1⟩ := swapAt_perm hi hj
    obtain ⟨l2, hrest, hp2⟩ := ih l1 (by rw [hp1.length_eq]; omega)
    exact ⟨l2, by simp only [shuffle, hswap, Option.bind_eq_bind, Option.bind_some, hrest],
      hp2.trans hp1⟩

/-! ### Taking one head -/

section DropHead

variable {buckets : List (List α)} {j : Nat} {n : α} {rest : List α}

/-- A bucket of one node leaves the list. -/
theorem dropHead_single :
    dropHead buckets j [n] = buckets.take j ++ buckets.drop (j + 1) := by
  simp [dropHead, List.eraseIdx_eq_take_drop_succ, List.take_set, List.drop_set,
    List.set_eq_of_length_le]

/-- A longer bucket keeps its tail. -/
theorem dropHead_cons (hrest : rest ≠ []) : dropHead buckets j (n :: rest) = buckets.set j rest := by
  simp [dropHead, hrest]

/-- The head taken and the nodes left are the nodes there were. -/
theorem dropHead_perm (hj : buckets[j]? = some (n :: rest)) :
    (n :: (dropHead buckets j (n :: rest)).flatten).Perm buckets.flatten := by
  obtain ⟨hlt, hget⟩ := List.getElem?_eq_some_iff.mp hj
  have hsplit : buckets = buckets.take j ++ (n :: rest) :: buckets.drop (j + 1) := by
    conv_lhs => rw [← List.take_append_drop j buckets, List.drop_eq_getElem_cons hlt, hget]
  have hflat : buckets.flatten =
      (buckets.take j).flatten ++ n :: (rest ++ (buckets.drop (j + 1)).flatten) := by
    conv_lhs => rw [hsplit]
    simp
  rw [hflat]
  by_cases hrest : rest = []
  · subst hrest
    rw [dropHead_single]
    simpa using List.perm_middle.symm
  · rw [dropHead_cons hrest, List.set_eq_take_append_cons_drop, if_pos hlt]
    simpa using List.perm_middle.symm

/-- Taking a head keeps every bucket non-empty. -/
theorem dropHead_ne_nil (hne : ∀ b ∈ buckets, b ≠ []) (hj : buckets[j]? = some (n :: rest)) :
    ∀ b ∈ dropHead buckets j (n :: rest), b ≠ [] := by
  obtain ⟨hlt, -⟩ := List.getElem?_eq_some_iff.mp hj
  intro b hb
  by_cases hrest : rest = []
  · subst hrest
    rw [dropHead_single] at hb
    rcases List.mem_append.mp hb with h | h
    · exact hne b (List.mem_of_mem_take h)
    · exact hne b (List.mem_of_mem_drop h)
  · rw [dropHead_cons hrest] at hb
    rcases List.mem_or_eq_of_mem_set hb with h | rfl
    · exact hne b h
    · exact hrest

end DropHead

/-! ### The copy loop -/

/-- Writing at `i` in the buffer: the part before `i`, the node, and the part after. -/
theorem set_eq_take_cons_drop {buf : List α} {i : Nat} (hi : i < buf.length) (n : α) :
    buf.set i n = buf.take i ++ n :: buf.drop (i + 1) := by
  rw [List.set_eq_take_append_cons_drop, if_pos hi]

/-- Writing at `i` and then from `i + 1` on is writing `n :: W` from `i` on. -/
theorem set_take_drop {buf : List α} {i : Nat} (hi : i < buf.length) (n : α) (W : List α) :
    (buf.set i n).take (i + 1) ++ W ++ (buf.set i n).drop (i + 1 + W.length) =
      buf.take i ++ (n :: W) ++ buf.drop (i + (n :: W).length) := by
  have htake : (buf.take i).length = i := List.length_take_of_le (by omega)
  have h1 : (buf.take i ++ n :: buf.drop (i + 1)).take (i + 1) = buf.take i ++ [n] := by
    rw [List.take_append, List.take_of_length_le (by omega : (buf.take i).length ≤ i + 1), htake]
    simp
  have h2 : (buf.take i ++ n :: buf.drop (i + 1)).drop (i + 1 + W.length) =
      buf.drop (i + (n :: W).length) := by
    rw [List.drop_append,
      List.drop_of_length_le (by omega : (buf.take i).length ≤ i + 1 + W.length), htake,
      show i + 1 + W.length - i = W.length + 1 by omega]
    simp only [List.nil_append, List.drop_succ_cons, List.drop_drop, List.length_cons]
    congr 1
    omega
  rw [set_eq_take_cons_drop hi, h1, h2]
  simp

/-- Bucket `j` of non-empty buckets has a head. -/
theorem exists_head {buckets : List (List α)} {j : Nat} (hne : ∀ b ∈ buckets, b ≠ [])
    (hj : j < buckets.length) : ∃ n rest, buckets[j]? = some (n :: rest) := by
  obtain ⟨n, rest, hcons⟩ := List.exists_cons_of_ne_nil (hne _ (List.getElem_mem hj))
  exact ⟨n, rest, by rw [List.getElem?_eq_getElem hj, hcons]⟩

/-- Non-empty buckets hold a node. -/
theorem flatten_length_pos {buckets : List (List α)} {j : Nat} (hne : ∀ b ∈ buckets, b ≠ [])
    (hj : j < buckets.length) : 0 < buckets.flatten.length := by
  obtain ⟨n, rest, hb⟩ := exists_head hne hj
  rw [← (dropHead_perm hb).length_eq, List.length_cons]
  omega

/-- The copy loop from `i` with `k` slots left, over non-empty buckets: it returns, having
written `W` from `i` on, `W` and the nodes left make up the buckets' nodes, and `W` is as long
as the buffer or the buckets allow.  The count is `i + |W|` after the `break`, and one more when
the buffer runs out first. -/
theorem fill_spec :
    ∀ (k : Nat) (buckets : List (List α)) (buf : List α) (i j : Nat),
      (∀ b ∈ buckets, b ≠ []) → j < buckets.length → i + k = buf.length →
      ∃ W rest, fill buckets buf i j k =
          some (if k < buckets.flatten.length then i + k + 1 else i + buckets.flatten.length,
            buf.take i ++ W ++ buf.drop (i + W.length)) ∧
        W.length = min k buckets.flatten.length ∧ (W ++ rest).Perm buckets.flatten := by
  intro k
  induction k with
  | zero =>
    intro buckets buf i j hne hj hk
    have hpos := flatten_length_pos hne hj
    refine ⟨[], buckets.flatten, ?_, by simp, by simp⟩
    rw [if_pos hpos]
    simp [fill]
  | succ k ih =>
    intro buckets buf i j hne hj hk
    obtain ⟨n, rest, hb⟩ := exists_head hne hj
    have hperm := dropHead_perm hb
    have hlen : (dropHead buckets j (n :: rest)).flatten.length + 1 = buckets.flatten.length := by
      rw [← hperm.length_eq, List.length_cons]
    have hi : i < buf.length := by omega
    by_cases h0 : (dropHead buckets j (n :: rest)).length = 0
    · -- the last node: the loop breaks after writing it
      have hnil : dropHead buckets j (n :: rest) = [] := List.eq_nil_of_length_eq_zero h0
      rw [hnil] at hperm hlen
      have hT : buckets.flatten.length = 1 := by simpa using hlen.symm
      refine ⟨[n], [], ?_, by simp [hT], by simpa using hperm⟩
      simp only [fill, hb, Option.bind_eq_bind, Option.bind_some, List.getElem?_cons_zero, h0,
        if_true, hT]
      rw [if_neg (by omega), set_eq_take_cons_drop hi]
      simp
    · -- the loop goes on at the next bucket
      have hj' := Nat.mod_lt (j + 1) (Nat.pos_of_ne_zero h0)
      obtain ⟨W, rest', hfill, hW, hp⟩ :=
        ih _ (buf.set i n) (i + 1) _ (dropHead_ne_nil hne hb) hj' (by simp; omega)
      refine ⟨n :: W, rest', ?_, by simp only [List.length_cons, hW]; omega,
        (hp.cons n).trans hperm⟩
      simp only [fill, hb, Option.bind_eq_bind, Option.bind_some, List.getElem?_cons_zero, h0,
        if_false, hfill, set_take_drop hi, Option.some.injEq, Prod.mk.injEq, and_true]
      split_ifs <;> omega

/-! ### `ReadRandomNodes` -/

/-- The non-empty buckets hold the table's entries. -/
theorem flatten_nonempty (tab : Table) :
    (((List.range nBuckets.toNat).map fun k => (tab.buckets k).entries).filter
      fun b => 0 < b.length).flatten = tab.allEntries := by
  rw [List.filter_congr (q := fun b => decide (b ≠ [])) (by simp [List.length_pos_iff]),
    List.flatten_filter_ne_nil]
  rfl

/-- Nodes taken once each from a list of distinct ids have distinct ids. -/
theorem nodup_ids_of_perm {W rest E : List Node} (hp : (W ++ rest).Perm E)
    (hE : (E.map Node.ID).Nodup) : (W.map Node.ID).Nodup := by
  have h := (hp.map Node.ID).nodup_iff.mpr hE
  rw [List.map_append] at h
  exact h.of_append_left

/-- `ReadRandomNodes` writes `W` at the front of the buffer, `W` is a part of the table's
entries taken once each, as long as the buffer or the table allows, and its ids are distinct
where the table's are.  The count is `|W|` when the table fits in the buffer, and `|W| + 1`
when the buffer is shorter than the table, the empty buffer included. -/
theorem ReadRandomNodes_spec (tab : Table) (initDone : Bool) (rand : Nat → UInt32)
    (buf : List Node) :
    ∃ W rest, tab.ReadRandomNodes initDone rand buf =
        some (if initDone = true ∧ 0 < tab.allEntries.length then
            (if buf.length < tab.allEntries.length then buf.length + 1 else tab.allEntries.length)
          else 0, W ++ buf.drop W.length) ∧
      W.length = (if initDone = true then min buf.length tab.allEntries.length else 0) ∧
      (W ++ rest).Perm tab.allEntries ∧
      ((tab.allEntries.map Node.ID).Nodup → (W.map Node.ID).Nodup) := by
  cases initDone
  · -- before the first refresh nothing is read
    exact ⟨[], tab.allEntries, by simp [Table.ReadRandomNodes], by simp, by simp, by simp⟩
  have hflat := flatten_nonempty tab
  set F := ((List.range nBuckets.toNat).map fun k => (tab.buckets k).entries).filter
    fun b => 0 < b.length with hF
  by_cases h0 : F.length = 0
  · -- no bucket holds a node
    have hE : tab.allEntries = [] := by rw [← hflat, List.eq_nil_of_length_eq_zero h0]; rfl
    refine ⟨[], [], ?_, by simp [hE], by simp [hE], by simp⟩
    simp [Table.ReadRandomNodes, ← hF, h0, hE]
  -- the shuffled buckets are the non-empty ones in another order
  obtain ⟨S, hS, hSp⟩ := shuffle_perm rand (F.length - 1) F (by omega)
  have hSne : ∀ b ∈ S, b ≠ [] := fun b hb => by
    simpa [F, List.length_pos_iff] using List.of_mem_filter (hSp.subset hb)
  have hS0 : 0 < S.length := by rw [hSp.length_eq]; omega
  have hSflat : S.flatten.Perm tab.allEntries := hflat ▸ hSp.flatten
  have hpos : 0 < tab.allEntries.length := hSflat.length_eq ▸ flatten_length_pos hSne hS0
  obtain ⟨W, rest, hfill, hW, hp⟩ := fill_spec buf.length S buf 0 0 hSne hS0 (by simp)
  rw [hSflat.length_eq] at hfill hW
  refine ⟨W, rest, ?_, by simpa using hW, hp.trans hSflat, nodup_ids_of_perm (hp.trans hSflat)⟩
  simp only [Table.ReadRandomNodes, ← hF, h0, Bool.not_true, Bool.false_eq_true, if_false,
    hS, Option.bind_eq_bind, Option.bind_some, hfill, hpos, and_self, if_true]
  simp

/-- The table holding one node, in bucket 0. -/
def oneNodeTable : Table :=
  (newTable localNode).setBucket 0 ⟨[peerNode], [], ⟨bucketSubnet, bucketIPLimit, fun _ => 0⟩⟩

/-- Lists of which only the one at `i` may be non-empty flatten to that one. -/
theorem flatten_map_range_single {f : Nat → List α} {i : Nat} (hrest : ∀ k, k ≠ i → f k = []) :
    ∀ n, i < n → ((List.range n).map f).flatten = f i := by
  intro n
  induction n with
  | zero => intro h; omega
  | succ n ih =>
    intro hi
    rw [List.range_succ, List.map_append, List.flatten_append]
    by_cases hin : i = n
    · -- the lists below `n` are all empty
      subst hin
      have hnil : ((List.range i).map f).flatten = [] := by
        rw [List.flatten_eq_nil_iff]
        simp only [List.mem_map, List.mem_range]
        rintro l ⟨k, hk, rfl⟩
        exact hrest k (by omega)
      simp [hnil]
    · simp [ih (by omega), hrest n (Ne.symm hin)]

theorem allEntries_oneNodeTable : oneNodeTable.allEntries = [peerNode] := by
  have hrest : ∀ k, k ≠ 0 → (oneNodeTable.buckets k).entries = [] := by
    intro k hk
    simp [oneNodeTable, newTable, hk]
  rw [Table.allEntries, flatten_map_range_single hrest _ (by decide)]
  rfl

/-- An empty buffer gets the count 1. -/
theorem ReadRandomNodes_spec_empty_buffer :
    (oneNodeTable.ReadRandomNodes true (fun _ => 0) []).map Prod.fst = some 1 := by
  obtain ⟨W, rest, hread, -⟩ := ReadRandomNodes_spec oneNodeTable true (fun _ => 0) []
  rw [hread, allEntries_oneNodeTable]
  rfl

end Discover
end Ethcore
