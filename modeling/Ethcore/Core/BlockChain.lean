import Mathlib.Logic.Relation
import Mathlib.Logic.Function.Basic

namespace Ethcore
namespace Core

/-!
# The canonical chain index: `blockchain.go`

The chain database keeps blocks and total difficulties by hash, and the canonical index maps a
block number to the hash of the canonical block at that height (`GetCanonicalHash`; the empty
hash is `none` here).  `BlockChain.WriteBlock` stores a block and, when its total difficulty
beats the head's (or ties it and the number rule or the coin selects it), makes it the head:
`reorg` walks the old and the new head back to their common ancestor and `insert`s every block
of the new side, and `insert` writes one canonical entry, at the inserted block's number.

Hashes are a type parameter; a block carries its hash as a field, and `Writable` asks that the
hash of a written block names no other stored block (no collision).  `mrand.Float64() < 0.5` is
the argument `coin`.  The loops of `reorg` follow parent links until a number or a hash
matches; each runs on fuel, and `reorg_spec` shows that on a database whose parent links go one
number down to the genesis (`WellLinked`) the fuel `reorg` gives them is enough.

Nothing in `reorg` or `insert` deletes a canonical entry.  After a reorganisation onto a head of
lower number, the entries of the old chain above the new head stay
(`WriteBlock_canonical_above_head`).  Transactions, receipts, logs, the address-transaction
index and the events `reorg` posts are not modelled.
-/

/-- `types.Block`, with the header fields the canonical index reads. -/
structure Block (H : Type) where
  Hash : H
  ParentHash : H
  Number : Nat
  Difficulty : Nat
  deriving DecidableEq, Repr

/-- `WriteStatus`. -/
inductive WriteStatus where
  | NonStatTy
  | CanonStatTy
  | SideStatTy
  deriving DecidableEq, Repr

/-- The errors `WriteBlock` returns: `ParentError` and the `fmt.Errorf` texts of `reorg`. -/
inductive ChainError (H : Type) where
  | ParentError (hash : H)
  | Errorf (msg : String)
  deriving DecidableEq, Repr

/-- `BlockChain`, with the database tables the canonical index reads and writes. -/
structure BlockChain (H : Type) where
  GetBlock : H → Option (Block H)
  GetTd : H → Option Nat
  GetCanonicalHash : Nat → Option H
  currentBlock : Block H
  currentHeader : Block H
  currentFastBlock : Block H

variable {H : Type}

/-! ### Database writes -/

namespace BlockChain

/-- `WriteCanonicalHash`: the canonical hash at a number. -/
def WriteCanonicalHash (bc : BlockChain H) (hash : H) (number : Nat) : BlockChain H :=
  { bc with GetCanonicalHash := Function.update bc.GetCanonicalHash number (some hash) }

@[simp] theorem WriteCanonicalHash_GetCanonicalHash (bc : BlockChain H) (hash : H) (m n : Nat) :
    (bc.WriteCanonicalHash hash m).GetCanonicalHash n =
      if n = m then some hash else bc.GetCanonicalHash n := by
  simp [WriteCanonicalHash, Function.update_apply]

@[simp] theorem WriteCanonicalHash_GetBlock (bc : BlockChain H) (hash : H) (m : Nat) :
    (bc.WriteCanonicalHash hash m).GetBlock = bc.GetBlock := rfl

@[simp] theorem WriteCanonicalHash_GetTd (bc : BlockChain H) (hash : H) (m : Nat) :
    (bc.WriteCanonicalHash hash m).GetTd = bc.GetTd := rfl

@[simp] theorem WriteCanonicalHash_currentBlock (bc : BlockChain H) (hash : H) (m : Nat) :
    (bc.WriteCanonicalHash hash m).currentBlock = bc.currentBlock := rfl

variable [DecidableEq H]

/-- `WriteTd`: the total difficulty of a hash. -/
def WriteTd (bc : BlockChain H) (hash : H) (td : Nat) : BlockChain H :=
  { bc with GetTd := Function.update bc.GetTd hash (some td) }

/-- The database's `WriteBlock(db, block)`: the block under its hash. -/
def WriteBlockToDb (bc : BlockChain H) (block : Block H) : BlockChain H :=
  { bc with GetBlock := Function.update bc.GetBlock block.Hash (some block) }

@[simp] theorem WriteTd_GetBlock (bc : BlockChain H) (hash : H) (td : Nat) :
    (bc.WriteTd hash td).GetBlock = bc.GetBlock := rfl

@[simp] theorem WriteTd_GetCanonicalHash (bc : BlockChain H) (hash : H) (td : Nat) :
    (bc.WriteTd hash td).GetCanonicalHash = bc.GetCanonicalHash := rfl

@[simp] theorem WriteTd_currentBlock (bc : BlockChain H) (hash : H) (td : Nat) :
    (bc.WriteTd hash td).currentBlock = bc.currentBlock := rfl

@[simp] theorem WriteBlockToDb_GetBlock (bc : BlockChain H) (block : Block H) (h : H) :
    (bc.WriteBlockToDb block).GetBlock h = if h = block.Hash then some block else bc.GetBlock h := by
  simp [WriteBlockToDb, Function.update_apply]

@[simp] theorem WriteBlockToDb_GetCanonicalHash (bc : BlockChain H) (block : Block H) :
    (bc.WriteBlockToDb block).GetCanonicalHash = bc.GetCanonicalHash := rfl

@[simp] theorem WriteBlockToDb_currentBlock (bc : BlockChain H) (block : Block H) :
    (bc.WriteBlockToDb block).currentBlock = bc.currentBlock := rfl

/-! ### The head -/

/-- `insert`: make a block the head and write its canonical entry; a block that was not
canonical at its number also moves the header and fast-sync heads. -/
def insert (bc : BlockChain H) (block : Block H) : BlockChain H :=
  -- a block on a side chain or an unknown one forces the other heads onto it too
  let updateHeads := bc.GetCanonicalHash block.Number ≠ some block.Hash
  let bc' := { bc.WriteCanonicalHash block.Hash block.Number with currentBlock := block }
  if updateHeads then { bc' with currentHeader := block, currentFastBlock := block } else bc'

@[simp] theorem insert_GetBlock (bc : BlockChain H) (block : Block H) :
    (bc.insert block).GetBlock = bc.GetBlock := by
  dsimp only [insert]; split <;> rfl

@[simp] theorem insert_GetTd (bc : BlockChain H) (block : Block H) :
    (bc.insert block).GetTd = bc.GetTd := by
  dsimp only [insert]; split <;> rfl

@[simp] theorem insert_currentBlock (bc : BlockChain H) (block : Block H) :
    (bc.insert block).currentBlock = block := by
  dsimp only [insert]; split <;> rfl

@[simp] theorem insert_GetCanonicalHash (bc : BlockChain H) (block : Block H) (n : Nat) :
    (bc.insert block).GetCanonicalHash n =
      if n = block.Number then some block.Hash else bc.GetCanonicalHash n := by
  have h : (bc.insert block).GetCanonicalHash =
      (bc.WriteCanonicalHash block.Hash block.Number).GetCanonicalHash := by
    dsimp only [insert]; split <;> rfl
  rw [h, WriteCanonicalHash_GetCanonicalHash]

/-- Inserting a list of blocks writes canonical entries at their numbers only. -/
theorem foldl_insert_GetCanonicalHash (chain : List (Block H)) (bc : BlockChain H) (n : Nat)
    (h : ∀ x ∈ chain, x.Number ≠ n) :
    (chain.foldl insert bc).GetCanonicalHash n = bc.GetCanonicalHash n := by
  induction chain generalizing bc with
  | nil => rfl
  | cons x rest ih =>
      rw [List.foldl_cons, ih _ fun y hy => h y (List.mem_cons_of_mem x hy),
        insert_GetCanonicalHash, if_neg (Ne.symm (h x List.mem_cons_self))]

@[simp] theorem foldl_insert_GetBlock (chain : List (Block H)) (bc : BlockChain H) :
    (chain.foldl insert bc).GetBlock = bc.GetBlock := by
  induction chain generalizing bc with
  | nil => rfl
  | cons x rest ih => rw [List.foldl_cons, ih, insert_GetBlock]

@[simp] theorem foldl_insert_GetTd (chain : List (Block H)) (bc : BlockChain H) :
    (chain.foldl insert bc).GetTd = bc.GetTd := by
  induction chain generalizing bc with
  | nil => rfl
  | cons x rest ih => rw [List.foldl_cons, ih, insert_GetTd]

end BlockChain

/-! ### Reorganisation -/

/-- The first loop of `reorg`: follow parent links from a block, appending each block passed
to `chain`, until the number is `n` or a parent is missing.  The loop runs at most `fuel`
times; `none` is a walk that did not end within it. -/
def collectTo (get : H → Option (Block H)) (n : Nat) :
    Nat → Option (Block H) → List (Block H) → Option (Option (Block H) × List (Block H))
  | _, none, chain => some (none, chain)
  | fuel, some b, chain =>
    if b.Number ≠ n then
      match fuel with
      | 0 => none
      | fuel + 1 => collectTo get n fuel (get b.ParentHash) (chain ++ [b])
    else some (some b, chain)

/-! ### Parent links -/

/-- The claim's condition on a block: it is the genesis, or its number is above the genesis'
and its parent is stored with a number one lower. -/
def Linked (get : H → Option (Block H)) (g x : Block H) : Prop :=
  x = g ∨ (g.Number < x.Number ∧ ∃ p, get x.ParentHash = some p ∧ p.Number + 1 = x.Number)

/-- A database whose every block is stored under its own hash and `Linked`. -/
def WellLinked (get : H → Option (Block H)) (g : Block H) : Prop :=
  ∀ h x, get h = some x → x.Hash = h ∧ Linked get g x

section Links

variable {get : H → Option (Block H)} {g x : Block H}

theorem Linked.number_ge (hx : Linked get g x) : g.Number ≤ x.Number := by
  rcases hx with rfl | ⟨hlt, -⟩
  · exact Nat.le_refl _
  · exact Nat.le_of_lt hlt

/-- The genesis is the only linked block at its number. -/
theorem Linked.eq_of_number_le (hx : Linked get g x) (h : x.Number ≤ g.Number) : x = g := by
  rcases hx with rfl | ⟨hlt, -⟩
  · rfl
  · omega

/-- Any other linked block has a linked parent, one number lower. -/
theorem Linked.parent (hwl : WellLinked get g) (hx : Linked get g x) (hne : x ≠ g) :
    ∃ p, get x.ParentHash = some p ∧ p.Number + 1 = x.Number ∧ Linked get g p := by
  rcases hx with rfl | ⟨-, p, hp, hpn⟩
  · exact absurd rfl hne
  · exact ⟨p, hp, hpn, (hwl _ _ hp).2⟩

/-- A link survives a database that keeps every stored block. -/
theorem Linked.mono {get' : H → Option (Block H)} (hx : Linked get g x)
    (hext : ∀ h y, get h = some y → get' h = some y) : Linked get' g x := by
  rcases hx with rfl | ⟨hlt, p, hp, hpn⟩
  · exact Or.inl rfl
  · exact Or.inr ⟨hlt, p, hext _ _ hp, hpn⟩

/-- A block, then blocks no higher than its parent: none is higher than the block. -/
theorem number_le_of_mem_cons {b p : Block H} {rest : List (Block H)}
    (hpn : p.Number + 1 = b.Number) (hrest : ∀ x ∈ rest, x.Number ≤ p.Number) :
    ∀ x ∈ b :: rest, x.Number ≤ b.Number := by
  intro x hx
  rcases List.mem_cons.mp hx with rfl | hx
  · exact Nat.le_refl _
  · have := hrest x hx
    omega

end Links

/-! ### The walks of `reorg` -/

section Walks

variable {get : H → Option (Block H)} {g : Block H}

attribute [local simp] collectTo in
theorem collectTo_of_eq {n fuel : Nat} {b : Block H} {chain : List (Block H)}
    (h : b.Number = n) : collectTo get n fuel (some b) chain = some (some b, chain) := by
  cases fuel <;> simp [h]

theorem collectTo_succ_of_ne {n fuel : Nat} {b : Block H} {chain : List (Block H)}
    (h : b.Number ≠ n) :
    collectTo get n (fuel + 1) (some b) chain =
      collectTo get n fuel (get b.ParentHash) (chain ++ [b]) := by
  simp [collectTo, h]

/-- On a well-linked database the first loop reaches the number `n` within `b.Number - n`
steps, at a linked block, and collects blocks no higher than the start. -/
theorem collectTo_spec (hwl : WellLinked get g) {n : Nat} (hn : g.Number ≤ n) (fuel : Nat) :
    ∀ (b : Block H) (chain : List (Block H)), Linked get g b → n ≤ b.Number →
      b.Number - n ≤ fuel →
      ∃ a rest, collectTo get n fuel (some b) chain = some (some a, chain ++ rest) ∧
        Linked get g a ∧ a.Number = n ∧ ∀ x ∈ rest, x.Number ≤ b.Number := by
  -- induction on the fuel; the walk goes one number down per step
  induction fuel with
  | zero =>
      intro b chain hb hnb hfuel
      have hbn : b.Number = n := by omega
      exact ⟨b, [], by rw [collectTo_of_eq hbn, List.append_nil], hb, hbn, by simp⟩
  | succ fuel ih =>
      intro b chain hb hnb hfuel
      by_cases hbn : b.Number = n
      · exact ⟨b, [], by rw [collectTo_of_eq hbn, List.append_nil], hb, hbn, by simp⟩
      · have hne : b ≠ g := fun hbg => hbn (by subst hbg; omega)
        obtain ⟨p, hp, hpn, hpl⟩ := hb.parent hwl hne
        obtain ⟨a, rest, hrun, ha, han, hrest⟩ :=
          ih p (chain ++ [b]) hpl (by omega) (by omega)
        refine ⟨a, b :: rest, ?_, ha, han, number_le_of_mem_cons hpn hrest⟩
        rw [collectTo_succ_of_ne hbn, hp, hrun, List.append_assoc, List.singleton_append]

end Walks

variable [DecidableEq H]

/-- The second loop of `reorg`: step both blocks to their parents, appending them to the two
chains, until their hashes agree. -/
def findCommon (get : H → Option (Block H)) :
    Nat → Block H → Block H → List (Block H) → List (Block H) →
      Option (Except (ChainError H) (Block H × List (Block H) × List (Block H)))
  | fuel, oldBlock, newBlock, oldChain, newChain =>
    if oldBlock.Hash = newBlock.Hash then some (.ok (oldBlock, oldChain, newChain))
    else
      match fuel with
      | 0 => none
      | fuel + 1 =>
        match get oldBlock.ParentHash, get newBlock.ParentHash with
        | none, _ => some (.error (.Errorf "Invalid old chain"))
        | some _, none => some (.error (.Errorf "Invalid new chain"))
        | some o, some n => findCommon get fuel o n (oldChain ++ [oldBlock]) (newChain ++ [newBlock])

section Common

variable {get : H → Option (Block H)} {g : Block H}

attribute [local simp] findCommon in
theorem findCommon_of_eq {fuel : Nat} {o b : Block H} {oc nc : List (Block H)}
    (h : o.Hash = b.Hash) : findCommon get fuel o b oc nc = some (.ok (o, oc, nc)) := by
  cases fuel <;> simp [h]

theorem findCommon_succ_of_parents {fuel : Nat} {o b po pb : Block H} {oc nc : List (Block H)}
    (h : o.Hash ≠ b.Hash) (ho : get o.ParentHash = some po) (hb : get b.ParentHash = some pb) :
    findCommon get (fuel + 1) o b oc nc = findCommon get fuel po pb (oc ++ [o]) (nc ++ [b]) := by
  simp [findCommon, h, ho, hb]

/-- On a well-linked database two linked blocks of one number meet within their height above
the genesis, and the blocks collected on the new side are no higher than it. -/
theorem findCommon_spec (hwl : WellLinked get g) (fuel : Nat) :
    ∀ (o b : Block H) (oc nc : List (Block H)), Linked get g o → Linked get g b →
      o.Number = b.Number → b.Number - g.Number < fuel →
      ∃ c oc' nc', findCommon get fuel o b oc nc = some (.ok (c, oc ++ oc', nc ++ nc')) ∧
        ∀ x ∈ nc', x.Number ≤ b.Number := by
  -- induction on the fuel; both walks go one number down per step
  induction fuel with
  | zero =>
      intro o b oc nc _ _ _ hfuel
      omega
  | succ fuel ih =>
      intro o b oc nc ho hb hnum hfuel
      by_cases hob : o.Hash = b.Hash
      · exact ⟨o, [], [], by rw [findCommon_of_eq hob, List.append_nil, List.append_nil],
          by simp⟩
      · -- two different blocks: neither is the genesis, as it is alone at its number
        have hog : o ≠ g := by
          rintro rfl
          exact hob (congrArg Block.Hash (hb.eq_of_number_le (by omega)).symm)
        have hbg : b ≠ g := by
          rintro rfl
          exact hob (congrArg Block.Hash (ho.eq_of_number_le (by omega)))
        obtain ⟨po, hpo, hpon, hpol⟩ := ho.parent hwl hog
        obtain ⟨pb, hpb, hpbn, hpbl⟩ := hb.parent hwl hbg
        have hgp := hpbl.number_ge
        obtain ⟨c, oc', nc', hrun, hnc'⟩ :=
          ih po pb (oc ++ [o]) (nc ++ [b]) hpol hpbl (by omega) (by omega)
        refine ⟨c, o :: oc', b :: nc', ?_, number_le_of_mem_cons hpbn hnc'⟩
        rw [findCommon_succ_of_parents hob hpo hpb, hrun]
        simp

end Common

namespace BlockChain

/-- `reorg`: walk the longer of the two chains down to the other's number, then both down to
their common ancestor, and `insert` the blocks of the new side, the new head first. -/
def reorg (bc : BlockChain H) (oldBlock newBlock : Block H) :
    Option (Except (ChainError H) (BlockChain H)) :=
  -- every loop steps one number down, so the two numbers bound them
  let fuel := oldBlock.Number + newBlock.Number + 1
  let reduced :=
    if oldBlock.Number > newBlock.Number then
      (collectTo bc.GetBlock newBlock.Number fuel (some oldBlock) []).map
        fun (o, oldChain) => (o, oldChain, some newBlock, [])
    else
      (collectTo bc.GetBlock oldBlock.Number fuel (some newBlock) []).map
        fun (n, newChain) => (some oldBlock, [], n, newChain)
  match reduced with
  | none => none
  | some (none, _, _, _) => some (.error (.Errorf "Invalid old chain"))
  | some (_, _, none, _) => some (.error (.Errorf "Invalid new chain"))
  | some (some o, oldChain, some n, newChain) =>
    match findCommon bc.GetBlock fuel o n oldChain newChain with
    | none => none
    | some (.error e) => some (.error e)
    | some (.ok (_, _, newChain)) => some (.ok (newChain.foldl insert bc))

/-- Whatever `reorg` returns is the chain with a list of blocks inserted. -/
theorem reorg_ok {bc bc' : BlockChain H} {oldBlock newBlock : Block H}
    (h : bc.reorg oldBlock newBlock = some (.ok bc')) :
    ∃ newChain : List (Block H), bc' = newChain.foldl insert bc := by
  unfold reorg at h
  dsimp only at h
  -- every branch but the last returns `none` or an error
  split at h
  · cases h
  · cases h
  · cases h
  · split at h
    · cases h
    · cases h
    · rename_i newChain _
      exact ⟨newChain, by injection h with h; injection h with h; exact h.symm⟩

/-- On a well-linked database `reorg` of two linked blocks succeeds, and inserts blocks no
higher than the new head. -/
theorem reorg_spec {bc : BlockChain H} {g oldBlock newBlock : Block H}
    (hwl : WellLinked bc.GetBlock g) (ho : Linked bc.GetBlock g oldBlock)
    (hn : Linked bc.GetBlock g newBlock) :
    ∃ newChain : List (Block H), bc.reorg oldBlock newBlock = some (.ok (newChain.foldl insert bc)) ∧
      ∀ x ∈ newChain, x.Number ≤ newBlock.Number := by
  have hgo := ho.number_ge
  have hgn := hn.number_ge
  by_cases hlt : oldBlock.Number > newBlock.Number
  · -- the old head is walked down to the new head's number
    obtain ⟨a, oc, hrun, ha, han, -⟩ := collectTo_spec hwl hgn
      (oldBlock.Number + newBlock.Number + 1) oldBlock [] ho (by omega) (by omega)
    obtain ⟨c, oc', nc', hfc, hnc'⟩ := findCommon_spec hwl
      (oldBlock.Number + newBlock.Number + 1) a newBlock ([] ++ oc) [] ha hn han (by omega)
    refine ⟨[] ++ nc', ?_, fun x hx => hnc' x (by simpa using hx)⟩
    simp only [reorg, if_pos hlt, hrun, Option.map_some, hfc]
  · -- the new head is walked down to the old head's number
    obtain ⟨a, nc, hrun, ha, han, hnc⟩ := collectTo_spec hwl hgo
      (oldBlock.Number + newBlock.Number + 1) newBlock [] hn (by omega) (by omega)
    obtain ⟨c, oc', nc', hfc, hnc'⟩ := findCommon_spec hwl
      (oldBlock.Number + newBlock.Number + 1) oldBlock a [] ([] ++ nc) ho ha han.symm (by omega)
    refine ⟨[] ++ nc ++ nc', ?_, ?_⟩
    · simp only [reorg, if_neg hlt, hrun, Option.map_some, hfc]
    · intro x hx
      simp only [List.nil_append, List.mem_append] at hx
      rcases hx with hx | hx
      · exact hnc x hx
      · have := hnc' x hx
        omega

/-- The variable `reorg` of `WriteBlock`: a greater total difficulty than the head's wins, and
an equal one is split by number, then at random. -/
def chooseReorg (externTd localTd number currentNumber : Nat) (coin : Bool) : Bool :=
  if externTd = localTd then number < currentNumber || (number == currentNumber && coin)
  else localTd < externTd

/-- `WriteBlock`: store a block and its total difficulty, and make it the head when its total
difficulty is greater than the head's, or equal with a lower number (or an equal one and
`coin`).  `none` is the panic of comparing with a missing head difficulty. -/
def WriteBlock (bc : BlockChain H) (block : Block H) (coin : Bool) :
    Option (Except (ChainError H) WriteStatus × BlockChain H) :=
  match bc.GetTd block.ParentHash with
  | none => some (.error (.ParentError block.ParentHash), bc)
  | some ptd =>
    match bc.GetTd bc.currentBlock.Hash with
    | none => none
    | some localTd =>
      let externTd := block.Difficulty + ptd
      let reorg := chooseReorg externTd localTd block.Number bc.currentBlock.Number coin
      -- the total difficulty and the block are written whatever the status
      let record (bc : BlockChain H) := (bc.WriteTd block.Hash externTd).WriteBlockToDb block
      if reorg then
        if block.ParentHash ≠ bc.currentBlock.Hash then
          match bc.reorg bc.currentBlock block with
          | none => none
          | some (.error e) => some (.error e, bc)
          | some (.ok bc') => some (.ok .CanonStatTy, record (bc'.insert block))
        else some (.ok .CanonStatTy, record (bc.insert block))
      else some (.ok .SideStatTy, record bc)

/-- `WriteGenesisBlock` on an empty database, and the chain opened on it. -/
def WriteGenesisBlock (g : Block H) : BlockChain H where
  GetBlock := Function.update (fun _ => none) g.Hash (some g)
  GetTd := Function.update (fun _ => none) g.Hash (some g.Difficulty)
  GetCanonicalHash := Function.update (fun _ => none) g.Number (some g.Hash)
  currentBlock := g
  currentHeader := g
  currentFastBlock := g

/-! ### Runs -/

/-- The claim's conditions on a written block: its parent is stored, with a number one lower,
and its hash names no other stored block. -/
structure Writable (get : H → Option (Block H)) (block : Block H) : Prop where
  parent : ∃ p, get block.ParentHash = some p ∧ block.Number = p.Number + 1
  hash : ∀ x, get block.Hash = some x → x = block

/-- One `WriteBlock` call on a writable block, whatever it returns. -/
def Step (bc bc' : BlockChain H) : Prop :=
  ∃ block coin status, Writable bc.GetBlock block ∧ bc.WriteBlock block coin = some (status, bc')

/-- The chains that sequences of `WriteBlock` calls reach from the genesis. -/
def Reachable (g : Block H) (bc : BlockChain H) : Prop :=
  Relation.ReflTransGen Step (WriteGenesisBlock g) bc

/-- What every reachable chain keeps: a well-linked database, the head stored and canonical at
its number. -/
structure WellFormed (g : Block H) (bc : BlockChain H) : Prop where
  linked : WellLinked bc.GetBlock g
  head : bc.GetBlock bc.currentBlock.Hash = some bc.currentBlock
  headCanonical : bc.GetCanonicalHash bc.currentBlock.Number = some bc.currentBlock.Hash

theorem WriteBlockToDb_GetBlock_eq (bc : BlockChain H) (block : Block H) :
    (bc.WriteBlockToDb block).GetBlock = Function.update bc.GetBlock block.Hash (some block) :=
  rfl

/-- Storing a writable block keeps the database well linked. -/
theorem WellLinked.store {get : H → Option (Block H)} {g block : Block H}
    (hwl : WellLinked get g) (hw : Writable get block) :
    WellLinked (Function.update get block.Hash (some block)) g := by
  -- the new database keeps every stored block, as the block's hash named only itself
  have hext : ∀ h y, get h = some y → Function.update get block.Hash (some block) h = some y := by
    intro h y hy
    by_cases hh : h = block.Hash
    · subst hh
      rw [Function.update_self, hw.hash y hy]
    · rw [Function.update_of_ne hh, hy]
  intro h x hx
  by_cases hh : h = block.Hash
  · subst hh
    rw [Function.update_self] at hx
    cases hx
    obtain ⟨p, hp, hpn⟩ := hw.parent
    have hgp := (hwl _ _ hp).2.number_ge
    exact ⟨rfl, Or.inr ⟨by omega, p, hext _ _ hp, by omega⟩⟩
  · rw [Function.update_of_ne hh] at hx
    exact ⟨(hwl _ _ hx).1, (hwl _ _ hx).2.mono hext⟩

/-- What `WriteBlock` can do to the chain: nothing, record the block on a side chain, or
insert a list of blocks and then the block, and record it. -/
theorem WriteBlock_cases {bc bc' : BlockChain H} {block : Block H} {coin : Bool}
    {st : Except (ChainError H) WriteStatus} (h : bc.WriteBlock block coin = some (st, bc')) :
    bc' = bc ∨ (∃ td, bc' = (bc.WriteTd block.Hash td).WriteBlockToDb block) ∨
      ∃ td, ∃ newChain : List (Block H),
        bc' = (((newChain.foldl insert bc).insert block).WriteTd block.Hash td).WriteBlockToDb block := by
  unfold WriteBlock at h
  split at h
  · -- `ParentError`
    cases h
    exact Or.inl rfl
  · split at h
    · cases h
    · dsimp only at h
      split at h
      · split at h
        · split at h
          · cases h
          · cases h
            exact Or.inl rfl
          · rename_i bc₁ hreorg
            cases h
            obtain ⟨newChain, rfl⟩ := reorg_ok hreorg
            exact Or.inr (Or.inr ⟨_, newChain, rfl⟩)
        · cases h
          exact Or.inr (Or.inr ⟨_, [], rfl⟩)
      · cases h
        exact Or.inr (Or.inl ⟨_, rfl⟩)

theorem wellFormed_WriteGenesisBlock (g : Block H) : WellFormed g (WriteGenesisBlock g) where
  linked := by
    intro h x hx
    by_cases hh : h = g.Hash
    · subst hh
      simp only [WriteGenesisBlock, Function.update_self] at hx
      cases hx
      exact ⟨rfl, Or.inl rfl⟩
    · simp [WriteGenesisBlock, Function.update_of_ne hh] at hx
  head := by simp [WriteGenesisBlock]
  headCanonical := by simp [WriteGenesisBlock]

/-- Recording a writable block keeps the invariant, once the head is the block or a stored
block, canonical at its number. -/
theorem WellFormed.record {bc : BlockChain H} {g block : Block H} (td : Nat)
    (hwl : WellLinked bc.GetBlock g) (hw : Writable bc.GetBlock block)
    (hhead : bc.currentBlock = block ∨ bc.GetBlock bc.currentBlock.Hash = some bc.currentBlock)
    (hcanon : bc.GetCanonicalHash bc.currentBlock.Number = some bc.currentBlock.Hash) :
    WellFormed g ((bc.WriteTd block.Hash td).WriteBlockToDb block) where
  linked := WellLinked.store hwl hw
  head := by
    simp only [WriteBlockToDb_GetBlock, WriteTd_GetBlock, WriteBlockToDb_currentBlock,
      WriteTd_currentBlock]
    rcases hhead with hcur | hcur
    · rw [hcur, if_pos rfl]
    · split
      · rename_i heq
        rw [heq] at hcur
        rw [hw.hash _ hcur]
      · exact hcur
  headCanonical := hcanon

/-- One `WriteBlock` call keeps the invariant. -/
theorem WellFormed.writeBlock {bc bc' : BlockChain H} {g block : Block H} {coin : Bool}
    {st : Except (ChainError H) WriteStatus} (hwf : WellFormed g bc)
    (hw : Writable bc.GetBlock block) (h : bc.WriteBlock block coin = some (st, bc')) :
    WellFormed g bc' := by
  rcases WriteBlock_cases h with rfl | ⟨td, rfl⟩ | ⟨td, newChain, rfl⟩
  · exact hwf
  · exact WellFormed.record td hwf.linked hw (Or.inr hwf.head) hwf.headCanonical
  · -- the inserted blocks move the head and the canonical entries only
    have hget : ((newChain.foldl insert bc).insert block).GetBlock = bc.GetBlock := by simp
    apply WellFormed.record td (hget ▸ hwf.linked) (hget ▸ hw)
    · exact Or.inl (insert_currentBlock _ _)
    · simp

theorem Reachable.wellFormed {g : Block H} {bc : BlockChain H} (hr : Reachable g bc) :
    WellFormed g bc := by
  induction hr with
  | refl => exact wellFormed_WriteGenesisBlock g
  | tail _ hstep ih =>
      obtain ⟨block, coin, st, hw, h⟩ := hstep
      exact ih.writeBlock hw h

/-! ### Reorganisation onto a lower head -/

/-- A total difficulty at least the head's, on a block lower than the head, is chosen. -/
theorem chooseReorg_of_le {externTd localTd number currentNumber : Nat} {coin : Bool}
    (hle : localTd ≤ externTd) (hlt : number < currentNumber) :
    chooseReorg externTd localTd number currentNumber coin = true := by
  unfold chooseReorg
  split
  · simp [hlt]
  · simp only [decide_eq_true_eq]
    omega

/-- `WriteBlock` of a chosen block off the head: the reorganised chain with the block inserted
and recorded. -/
theorem WriteBlock_eq_of_reorg {bc bc₁ : BlockChain H} {block : Block H} (coin : Bool)
    {ptd localTd : Nat} (hptd : bc.GetTd block.ParentHash = some ptd)
    (hlocal : bc.GetTd bc.currentBlock.Hash = some localTd)
    (hchoose :
      chooseReorg (block.Difficulty + ptd) localTd block.Number bc.currentBlock.Number coin = true)
    (hparent : block.ParentHash ≠ bc.currentBlock.Hash)
    (hreorg : bc.reorg bc.currentBlock block = some (.ok bc₁)) :
    bc.WriteBlock block coin =
      some (.ok .CanonStatTy,
        ((bc₁.insert block).WriteTd block.Hash (block.Difficulty + ptd)).WriteBlockToDb block) := by
  simp only [WriteBlock, hptd, hlocal, hchoose, if_true, ne_eq, hparent, not_false_eq_true,
    hreorg]

/-- A block at least as heavy as the head and lower than it becomes the head, and the
canonical entry of the old head's number stays: after the call the index names a block above
the head. -/
theorem WriteBlock_canonical_above_head {g block : Block H} {bc : BlockChain H}
    (hr : Reachable g bc) (hw : Writable bc.GetBlock block) (coin : Bool) {ptd localTd : Nat}
    (hptd : bc.GetTd block.ParentHash = some ptd)
    (hlocal : bc.GetTd bc.currentBlock.Hash = some localTd)
    (hheavier : localTd ≤ block.Difficulty + ptd) (hlower : block.Number < bc.currentBlock.Number) :
    ∃ bc', bc.WriteBlock block coin = some (.ok .CanonStatTy, bc') ∧ Reachable g bc' ∧
      bc'.currentBlock = block ∧
      bc'.GetCanonicalHash bc.currentBlock.Number = some bc.currentBlock.Hash := by
  have hwf := hr.wellFormed
  obtain ⟨p, hp, hpn⟩ := hw.parent
  -- the block is linked through its stored parent, the head through the invariant
  have hgp := (hwf.linked _ _ hp).2.number_ge
  have hlink : Linked bc.GetBlock g block := Or.inr ⟨by omega, p, hp, by omega⟩
  have hhead : Linked bc.GetBlock g bc.currentBlock := (hwf.linked _ _ hwf.head).2
  -- the head is higher than the block, so it is not the block's parent
  have hparent : block.ParentHash ≠ bc.currentBlock.Hash := by
    intro heq
    rw [heq, hwf.head] at hp
    cases hp
    omega
  obtain ⟨newChain, hreorg, hnum⟩ := reorg_spec hwf.linked hhead hlink
  have hwrite := WriteBlock_eq_of_reorg coin hptd hlocal (chooseReorg_of_le hheavier hlower)
    hparent hreorg
  refine ⟨_, hwrite, .tail hr ⟨block, coin, _, hw, hwrite⟩, by simp, ?_⟩
  -- neither the reorganisation nor the new head writes at the old head's number
  have hne : bc.currentBlock.Number ≠ block.Number := by omega
  simp only [WriteBlockToDb_GetCanonicalHash, WriteTd_GetCanonicalHash, insert_GetCanonicalHash,
    if_neg hne]
  rw [foldl_insert_GetCanonicalHash newChain bc _ fun x hx => by have := hnum x hx; omega]
  exact hwf.headCanonical

/-- The genesis of the sample runs. -/
def sampleGenesis : Block Nat := ⟨1, 0, 0, 1⟩

/-- Two blocks of difficulty 10 on the genesis. -/
def sampleA1 : Block Nat := ⟨2, 1, 1, 10⟩

def sampleA2 : Block Nat := ⟨3, 2, 2, 10⟩

/-- A block of difficulty 20 on the genesis: as heavy as `sampleA2`, one lower. -/
def sampleB1 : Block Nat := ⟨4, 1, 1, 20⟩

theorem WriteBlock_canonical_above_head_sample :
    ∃ bc : BlockChain Nat, Reachable sampleGenesis bc ∧ bc.currentBlock = sampleA2 ∧
      ∃ bc', bc.WriteBlock sampleB1 false = some (.ok .CanonStatTy, bc') ∧
        Reachable sampleGenesis bc' ∧ bc'.currentBlock = sampleB1 ∧
        bc'.GetCanonicalHash 2 = some 3 := by
  -- the genesis, then `sampleA1` and `sampleA2` written as heads
  have hr : Reachable sampleGenesis _ :=
    .tail (.tail .refl ⟨sampleA1, false, _, ⟨⟨sampleGenesis, rfl, rfl⟩,
        fun x hx => by cases hx⟩, rfl⟩)
      ⟨sampleA2, false, _, ⟨⟨sampleA1, rfl, rfl⟩, fun x hx => by cases hx⟩, rfl⟩
  exact ⟨_, hr, rfl, WriteBlock_canonical_above_head hr
    ⟨⟨sampleGenesis, rfl, rfl⟩, fun x hx => by cases hx⟩ false rfl rfl (by decide) (by decide)⟩

end BlockChain

end Core
end Ethcore
