import Ethcore.Rlp.Item
import Mathlib.Logic.Function.Basic
import Mathlib.Algebra.Order.BigOperators.Group.List

/-!
# The node table of discovery: `p2p/discover/table.go`, `p2p/distip/net.go`

The table keeps its nodes in 257 buckets by log distance.  Three operations change it:
`add` puts a node in the bucket of its distance to the local node, or among that bucket's
replacements; `stuff` appends seed nodes to buckets; `delete` takes a node out.  Non-LAN
addresses are counted per `/24` subnet, per bucket and for the whole table, and `addIP`
refuses a node whose subnet has reached its limit.

`add` picks the bucket by `logdist(self.sha, n.sha)`, while `stuff` and `delete` pick it by
`logdist(logdistS1, Keccak256(n.sha, logdistS2))` with two salts drawn at start: whenever the
two disagree, `delete` searches a bucket `add` did not use (`delete_add_keeps`).  `stuff`
appends without `addIP` and `delete` removes without `removeIP`, so the subnet counts stop
matching the nodes held (`stuff_uncounted`).

Nodes keep the fields the table reads: the address, the id and its cached hash `sha`.
Buckets are indexed by every natural number; the operations only use indices up to 256.
-/

namespace Ethcore
namespace Discover

/-! ### Addresses -/

/-- `net.IP.To4`: a four-byte address, or the last four bytes of an IPv4-mapped one. -/
def To4 (ip : Bytes) : Option Bytes :=
  if ip.length = 4 then some ip
  else if ip.length = 16 ∧ (ip.take 10).all (· = 0) ∧ ip[10]? = some 0xff ∧ ip[11]? = some 0xff
  then some (ip.drop 12)
  else none

/-- `net.IPv6loopback`, `::1`. -/
def IPv6loopback : Bytes := List.replicate 15 0 ++ [1]

/-- `net.IP.IsLoopback`: `127.0.0.0/8`, or `::1`. -/
def IsLoopback (ip : Bytes) : Bool :=
  match To4 ip with
  | some ip4 => ip4.head? = some 127
  | none => ip = IPv6loopback

/-- Byte `i` of the mask of a prefix of `ones` bits. -/
def maskByte (ones i : Nat) : UInt8 :=
  if 8 * (i + 1) ≤ ones then 0xff
  else if ones ≤ 8 * i then 0
  else ~~~(0xff >>> (ones - 8 * i).toUInt8)

/-- `net.IPNet.Contains` for the network with address `network` and prefix length `ones`. -/
def netContains (network : Bytes) (ones : Nat) (ip : Bytes) : Bool :=
  let ip := (To4 ip).getD ip
  ip.length == network.length &&
    (network.zip ip).zipIdx.all fun ((n, x), i) => n &&& maskByte ones i == x &&& maskByte ones i

/-- `lan4`: `0.0.0.0/8`, `10.0.0.0/8`, `172.16.0.0/12`, `192.168.0.0/16`. -/
def lan4 : List (Bytes × Nat) :=
  [([0, 0, 0, 0], 8), ([10, 0, 0, 0], 8), ([172, 16, 0, 0], 12), ([192, 168, 0, 0], 16)]

/-- `lan6`: `fe80::/10`, `fc00::/7`. -/
def lan6 : List (Bytes × Nat) :=
  [(0xfe :: 0x80 :: List.replicate 14 0, 10), (0xfc :: List.replicate 15 0, 7)]

/-- `distip.IsLAN`: a loopback, private-use or link-local address. -/
def IsLAN (ip : Bytes) : Bool :=
  if IsLoopback ip then true
  else
    match To4 ip with
    | some v4 => lan4.any fun (n, ones) => netContains n ones v4
    | none => lan6.any fun (n, ones) => netContains n ones ip

/-- `distip.DistinctNetSet`: how many addresses of each subnet were added, at most `Limit`
for each; a key that is not a member counts 0. -/
structure DistinctNetSet where
  Subnet : Nat
  Limit : Nat
  members : Bytes → Nat

namespace DistinctNetSet

/-- `key`: the address family byte (`'4'` or `'6'`) and the first `Subnet` bits. -/
def key (s : DistinctNetSet) (ip : Bytes) : Bytes :=
  let (typ, ip) : UInt8 × Bytes :=
    match To4 ip with
    | some ip4 => (52, ip4)  -- '4'
    | none => (54, ip)       -- '6'
  let bits := min s.Subnet (ip.length * 8)
  let nb := bits / 8
  let mask : UInt8 := ~~~(0xFF >>> (bits % 8).toUInt8)
  let buf := typ :: ip.take nb
  match ip[nb]? with
  | some b => if mask ≠ 0 then buf ++ [b &&& mask] else buf
  | none => buf

/-- `Add`: count the address, unless its subnet is at the limit. -/
def Add (s : DistinctNetSet) (ip : Bytes) : Bool × DistinctNetSet :=
  let key := s.key ip
  let n := s.members key
  if n < s.Limit then (true, { s with members := Function.update s.members key (n + 1) })
  else (false, s)

/-- `Remove`: uncount the address, if its subnet is a member. -/
def Remove (s : DistinctNetSet) (ip : Bytes) : DistinctNetSet :=
  let key := s.key ip
  let n := s.members key
  if n = 0 then s else { s with members := Function.update s.members key (n - 1) }

end DistinctNetSet

/-! ### Distance -/

/-- `lzcount[x]`: the leading zero bits of a byte. -/
def lzcount (x : UInt8) : Nat := if x = 0 then 8 else 7 - x.toNat.log2

/-- The loop of `logdist`: the leading zero bits of `a XOR b`. -/
def logdistLz : Bytes → Bytes → Nat
  | x :: xs, y :: ys => if x ^^^ y = 0 then 8 + logdistLz xs ys else lzcount (x ^^^ y)
  | _, _ => 0

/-- `logdist`: the index of the highest bit in which two hashes differ, counted from 1. -/
def logdist (a b : Bytes) : Nat := a.length * 8 - logdistLz a b

/-! ### The table -/

def bucketSize : Nat := 16

def maxReplacements : Nat := 10

def hashBits : Int := 256

def nBuckets : Int := hashBits + 1

def bucketMinDistance : Int := hashBits - nBuckets

def bucketIPLimit : Nat := 2

def bucketSubnet : Nat := 24

def tableIPLimit : Nat := 10

def tableSubnet : Nat := 24

/-- The fields of `Node` the table reads. -/
structure Node where
  IP : Bytes
  ID : Bytes
  sha : Bytes

structure bucket where
  entries : List Node
  replacements : List Node
  ips : DistinctNetSet

structure Table where
  buckets : Nat → bucket
  ips : DistinctNetSet
  self : Node

/-- What placement reads besides the table: `crypto.Keccak256` and the salts `logdistS1` and
`logdistS2` drawn at start, all of them hashes of 32 bytes. -/
structure Env where
  Keccak256 : Bytes → Bytes
  logdistS1 : Bytes
  logdistS2 : Bytes
  length_Keccak256 : ∀ data, (Keccak256 data).length = 32
  length_logdistS1 : logdistS1.length = 32

/-- The buckets `newTable` builds, before any node is added. -/
def newTable (self : Node) : Table where
  buckets _ := ⟨[], [], ⟨bucketSubnet, bucketIPLimit, fun _ => 0⟩⟩
  ips := ⟨tableSubnet, tableIPLimit, fun _ => 0⟩
  self := self

namespace Table

/-- `bucket`: the index of the bucket for a node hash, by the distance to the local node. -/
def bucket (tab : Table) (sha : Bytes) : Nat :=
  let d := logdist tab.self.sha sha
  if (d : Int) ≤ bucketMinDistance then 0 else ((d : Int) - bucketMinDistance - 1).toNat

/-- The index `stuff` and `delete` use: the distance of the salted hash to the first salt. -/
def saltedBucket (env : Env) (sha : Bytes) : Nat :=
  logdist env.logdistS1 (env.Keccak256 (sha ++ env.logdistS2))

/-- Write bucket `i`. -/
def setBucket (tab : Table) (i : Nat) (b : Discover.bucket) : Table :=
  { tab with buckets := Function.update tab.buckets i b }

end Table

/-- `bucket.bump`: move the entry with the node's id to the front, as the node given. -/
def bump (entries : List Node) (n : Node) : Option (List Node) :=
  match entries.findIdx? (·.ID = n.ID) with
  | some i => some (n :: (entries.take i ++ entries.drop (i + 1)))
  | none => none

/-- `pushNode`: add the node in front, dropping the last one when the list has `max`. -/
def pushNode (list : List Node) (n : Node) (max : Nat) : List Node × Option Node :=
  if list.length < max then (n :: list, none) else (n :: list.dropLast, list.getLast?)

/-- `deleteNode`: remove the first node with the id. -/
def deleteNode (list : List Node) (n : Node) : List Node := list.eraseP (·.ID = n.ID)

namespace Table

/-- `addIP`: count a non-LAN address in the table and in bucket `i`, or refuse it. -/
def addIP (tab : Table) (i : Nat) (ip : Bytes) : Bool × Table :=
  if IsLAN ip then (true, tab)
  else
    match tab.ips.Add ip with
    | (false, _) => (false, tab)
    | (true, tips) =>
      let b := tab.buckets i
      match b.ips.Add ip with
      | (false, _) => (false, { tab with ips := tips.Remove ip })
      | (true, bips) => (true, { tab.setBucket i { b with ips := bips } with ips := tips })

/-- `removeIP`: uncount a non-LAN address in the table and in bucket `i`. -/
def removeIP (tab : Table) (i : Nat) (ip : Bytes) : Table :=
  if IsLAN ip then tab
  else
    let b := tab.buckets i
    { tab.setBucket i { b with ips := b.ips.Remove ip } with ips := tab.ips.Remove ip }

/-- `bumpOrAdd`: bump the node in bucket `i`, or add it in front if the bucket has room
and `addIP` admits its address, dropping it from the replacements. -/
def bumpOrAdd (tab : Table) (i : Nat) (n : Node) : Bool × Table :=
  let b := tab.buckets i
  match bump b.entries n with
  | some entries => (true, tab.setBucket i { b with entries := entries })
  | none =>
    if bucketSize ≤ b.entries.length then (false, tab)
    else
      match tab.addIP i n.IP with
      | (false, tab) => (false, tab)
      | (true, tab) =>
        let b := tab.buckets i
        (true, tab.setBucket i
          { b with entries := (pushNode b.entries n bucketSize).1,
                   replacements := deleteNode b.replacements n })

/-- `addReplacement`: put the node in front of the replacements of bucket `i`, uncounting
the one that falls off the end. -/
def addReplacement (tab : Table) (i : Nat) (n : Node) : Table :=
  if (tab.buckets i).replacements.any (·.ID = n.ID) then tab
  else
    match tab.addIP i n.IP with
    | (false, tab) => tab
    | (true, tab) =>
      let b := tab.buckets i
      let (replacements, removed) := pushNode b.replacements n maxReplacements
      let tab := tab.setBucket i { b with replacements := replacements }
      match removed with
      | some r => tab.removeIP i r.IP
      | none => tab

/-- `add`: bump or add the node in the bucket of its distance, else keep it as a
replacement there. -/
def add (tab : Table) (n : Node) : Table :=
  let i := tab.bucket n.sha
  match tab.bumpOrAdd i n with
  | (true, tab) => tab
  | (false, tab) => tab.addReplacement i n

/-- `stuff`: append each node that is not the local node to the end of its salted bucket,
if the bucket has room and does not hold the id. -/
def stuff (env : Env) (tab : Table) : List Node → Table
  | [] => tab
  | n :: nodes =>
    if n.ID = tab.self.ID then stuff env tab nodes
    else
      let i := saltedBucket env n.sha
      let b := tab.buckets i
      if b.entries.any (·.ID = n.ID) then stuff env tab nodes
      else if b.entries.length < bucketSize then
        stuff env (tab.setBucket i { b with entries := b.entries ++ [n] }) nodes
      else stuff env tab nodes

/-- `delete`: remove the first entry with the node's id from its salted bucket. -/
def delete (env : Env) (tab : Table) (node : Node) : Table :=
  let i := saltedBucket env node.sha
  let b := tab.buckets i
  tab.setBucket i { b with entries := b.entries.eraseP (·.ID = node.ID) }

end Table

/-! ### What each operation changes -/

namespace Table

@[simp] theorem setBucket_buckets (tab : Table) (i : Nat) (b : Discover.bucket) (k : Nat) :
    (tab.setBucket i b).buckets k = if k = i then b else tab.buckets k := by
  simp [setBucket, Function.update_apply]

@[simp] theorem setBucket_ips (tab : Table) (i : Nat) (b : Discover.bucket) :
    (tab.setBucket i b).ips = tab.ips := rfl

@[simp] theorem setBucket_self (tab : Table) (i : Nat) (b : Discover.bucket) :
    (tab.setBucket i b).self = tab.self := rfl

theorem setBucket_self_buckets (tab : Table) (i : Nat) : tab.setBucket i (tab.buckets i) = tab := by
  simp [setBucket]

/-- `tab'` is `tab` with other subnet counts for the table and for bucket `i`: what `addIP`
and `removeIP` do. -/
def CountsOnly (i : Nat) (tab tab' : Table) : Prop :=
  ∃ tips bips, tab' = { tab.setBucket i { tab.buckets i with ips := bips } with ips := tips }

namespace CountsOnly

variable {i : Nat} {tab tab' : Table}

theorem refl (tab : Table) (i : Nat) : CountsOnly i tab tab :=
  ⟨tab.ips, (tab.buckets i).ips, by rw [setBucket_self_buckets]⟩

theorem entries (h : CountsOnly i tab tab') (k : Nat) :
    (tab'.buckets k).entries = (tab.buckets k).entries := by
  obtain ⟨tips, bips, rfl⟩ := h
  by_cases hk : k = i <;> simp [hk]

theorem replacements (h : CountsOnly i tab tab') (k : Nat) :
    (tab'.buckets k).replacements = (tab.buckets k).replacements := by
  obtain ⟨tips, bips, rfl⟩ := h
  by_cases hk : k = i <;> simp [hk]

theorem self (h : CountsOnly i tab tab') : tab'.self = tab.self := by
  obtain ⟨tips, bips, rfl⟩ := h
  rfl

end CountsOnly

section Counts

variable (tab : Table) (i : Nat) (ip : Bytes)

theorem addIP_countsOnly : CountsOnly i tab (tab.addIP i ip).2 := by
  unfold addIP
  split
  · exact .refl tab i
  · split
    · exact .refl tab i
    · dsimp only
      split
      · exact ⟨_, (tab.buckets i).ips, by rw [setBucket_self_buckets]⟩
      · exact ⟨_, _, rfl⟩

theorem removeIP_countsOnly : CountsOnly i tab (tab.removeIP i ip) := by
  unfold removeIP
  split
  · exact .refl tab i
  · exact ⟨_, _, rfl⟩

/-- An empty table admits every address. -/
theorem addIP_newTable (self : Node) : ((newTable self).addIP i ip).1 = true := by
  unfold addIP
  split
  · rfl
  · simp [DistinctNetSet.Add, newTable, tableIPLimit, bucketIPLimit]

end Counts

section Steps

variable {tab : Table} {i : Nat} {n : Node}

/-- `bumpOrAdd` on a node the bucket does not hold, with room and the address admitted:
the node goes in front and leaves the replacements. -/
theorem bumpOrAdd_fresh (hb : bump (tab.buckets i).entries n = none)
    (hroom : (tab.buckets i).entries.length < bucketSize) (hip : (tab.addIP i n.IP).1 = true) :
    tab.bumpOrAdd i n =
      (true, (tab.addIP i n.IP).2.setBucket i
        { (tab.addIP i n.IP).2.buckets i with
          entries := n :: (tab.buckets i).entries
          replacements := deleteNode (tab.buckets i).replacements n }) := by
  have hc := addIP_countsOnly tab i n.IP
  rcases hadd : tab.addIP i n.IP with ⟨ok, t⟩
  rw [hadd] at hip hc
  obtain rfl : ok = true := hip
  replace hc : CountsOnly i tab t := hc
  simp only [bumpOrAdd, hb, if_neg (Nat.not_le.mpr hroom), hadd, pushNode, hc.entries,
    hc.replacements, if_pos hroom]

/-- What `bumpOrAdd` can do: bump the node in place, refuse it with at most the counts
changed, or add it in front. -/
theorem bumpOrAdd_cases (tab : Table) (i : Nat) (n : Node) :
    (∃ entries, bump (tab.buckets i).entries n = some entries ∧
        tab.bumpOrAdd i n = (true, tab.setBucket i { tab.buckets i with entries := entries })) ∨
    (∃ t, CountsOnly i tab t ∧ tab.bumpOrAdd i n = (false, t)) ∨
    (bump (tab.buckets i).entries n = none ∧ (tab.buckets i).entries.length < bucketSize ∧
      (tab.addIP i n.IP).1 = true ∧
      tab.bumpOrAdd i n =
        (true, (tab.addIP i n.IP).2.setBucket i
          { (tab.addIP i n.IP).2.buckets i with
            entries := n :: (tab.buckets i).entries
            replacements := deleteNode (tab.buckets i).replacements n })) := by
  cases hb : bump (tab.buckets i).entries n with
  | some entries =>
    refine .inl ⟨entries, rfl, ?_⟩
    simp only [bumpOrAdd, hb]
  | none =>
    by_cases hfull : bucketSize ≤ (tab.buckets i).entries.length
    · refine .inr (.inl ⟨tab, .refl tab i, ?_⟩)
      simp only [bumpOrAdd, hb, if_pos hfull]
    · have hc := addIP_countsOnly tab i n.IP
      rcases hadd : tab.addIP i n.IP with ⟨ok, t⟩
      rw [hadd] at hc
      cases ok with
      | false =>
        refine .inr (.inl ⟨t, hc, ?_⟩)
        simp only [bumpOrAdd, hb, if_neg hfull, hadd]
      | true =>
        have hroom : (tab.buckets i).entries.length < bucketSize := Nat.lt_of_not_le hfull
        have hip : (tab.addIP i n.IP).1 = true := by rw [hadd]
        refine .inr (.inr ⟨rfl, hroom, rfl, ?_⟩)
        rw [bumpOrAdd_fresh hb hroom hip, hadd]

/-- What `addReplacement` can do: nothing but count, or push the node on the replacements
and uncount the one pushed off. -/
theorem addReplacement_cases (tab : Table) (i : Nat) (n : Node) :
    CountsOnly i tab (tab.addReplacement i n) ∨
    ∃ t, CountsOnly i tab t ∧ ¬ (tab.buckets i).replacements.any (·.ID = n.ID) ∧
      let t' := t.setBucket i
        { t.buckets i with replacements := (pushNode (tab.buckets i).replacements n maxReplacements).1 }
      tab.addReplacement i n =
        match (pushNode (tab.buckets i).replacements n maxReplacements).2 with
        | some r => t'.removeIP i r.IP
        | none => t' := by
  by_cases hany : (tab.buckets i).replacements.any (·.ID = n.ID)
  · refine .inl ?_
    rw [addReplacement, if_pos hany]
    exact .refl tab i
  · have hc := addIP_countsOnly tab i n.IP
    rcases hadd : tab.addIP i n.IP with ⟨ok, t⟩
    rw [hadd] at hc
    cases ok with
    | false =>
      refine .inl ?_
      rw [addReplacement, if_neg hany, hadd]
      exact hc
    | true =>
      replace hc : CountsOnly i tab t := hc
      refine .inr ⟨t, hc, hany, ?_⟩
      rw [addReplacement, if_neg hany, hadd]
      simp only [hc.replacements]

theorem self_bumpOrAdd : (tab.bumpOrAdd i n).2.self = tab.self := by
  rcases bumpOrAdd_cases tab i n with ⟨_, -, h⟩ | ⟨t, hc, h⟩ | ⟨-, -, -, h⟩ <;> rw [h]
  · rfl
  · exact hc.self
  · exact (addIP_countsOnly tab i n.IP).self

theorem self_addReplacement : (tab.addReplacement i n).self = tab.self := by
  rcases addReplacement_cases tab i n with hc | ⟨t, hc, -, h⟩
  · exact hc.self
  · rw [h]
    split
    · exact (removeIP_countsOnly _ _ _).self.trans hc.self
    · exact hc.self

@[simp] theorem self_add : (tab.add n).self = tab.self := by
  have hb : (tab.bumpOrAdd (tab.bucket n.sha) n).2.self = tab.self := self_bumpOrAdd
  rcases hres : tab.bumpOrAdd (tab.bucket n.sha) n with ⟨ok, t⟩
  rw [hres] at hb
  cases ok
  · simp only [add, hres]
    rw [self_addReplacement]
    exact hb
  · simp only [add, hres]
    exact hb

end Steps

theorem entries_delete (env : Env) (tab : Table) (node : Node) (k : Nat) :
    ((tab.delete env node).buckets k).entries =
      if k = saltedBucket env node.sha then (tab.buckets k).entries.eraseP (·.ID = node.ID)
      else (tab.buckets k).entries := by
  unfold delete
  rw [setBucket_buckets]
  split
  · rename_i hk
    subst hk
    rfl
  · rfl

/-- `stuff` of no nodes leaves the table as it is. -/
theorem stuff_nil (env : Env) (tab : Table) : tab.stuff env [] = tab :=
  rfl

/-- `stuff` appends a node that is not the local node to its salted bucket when the bucket
has room and does not hold its id. -/
theorem stuff_cons_fresh (env : Env) (tab : Table) (n : Node) (nodes : List Node)
    (hself : n.ID ≠ tab.self.ID)
    (hfresh : ¬ (tab.buckets (saltedBucket env n.sha)).entries.any (·.ID = n.ID))
    (hroom : (tab.buckets (saltedBucket env n.sha)).entries.length < bucketSize) :
    tab.stuff env (n :: nodes) =
      (tab.setBucket (saltedBucket env n.sha)
        { tab.buckets (saltedBucket env n.sha) with
          entries := (tab.buckets (saltedBucket env n.sha)).entries ++ [n] }).stuff env nodes := by
  rw [stuff, if_neg hself]
  simp only [hfresh, if_pos hroom]
  rfl

/-- The only entry of a table that `add` has filled once. -/
theorem add_newTable_entries (self n : Node) (k : Nat) :
    (((newTable self).add n).buckets k).entries =
      if k = (newTable self).bucket n.sha then [n] else [] := by
  rw [add, bumpOrAdd_fresh rfl (by simp [newTable, bucketSize]) (addIP_newTable _ _ self)]
  have hc := addIP_countsOnly (newTable self) ((newTable self).bucket n.sha) n.IP
  rw [setBucket_buckets]
  split
  · rfl
  · rw [hc.entries]
    rfl

end Table

/-! ### Two bucket indices -/

/-- Salts and a hash under which every salted hash is at distance 0 from the first salt. -/
def zeroEnv : Env where
  Keccak256 _ := List.replicate 32 0
  logdistS1 := List.replicate 32 0
  logdistS2 := []
  length_Keccak256 _ := by simp
  length_logdistS1 := by simp

/-- A local node and a peer, at distance 249 from each other. -/
def localNode : Node := ⟨[127, 0, 0, 1], [0], List.replicate 32 0⟩

def peerNode : Node := ⟨[1, 2, 3, 4], [1], 1 :: List.replicate 31 0⟩

/-- `add` files a node by its distance to the local node, `delete` and `stuff` by its salted
hash: where the two buckets differ, the node `add` filed survives `delete`, and `stuff` files a
second copy of it. -/
theorem add_saltedBucket_mismatch (env : Env) (self n : Node) (hself : n.ID ≠ self.ID)
    (hidx : (newTable self).bucket n.sha ≠ Table.saltedBucket env n.sha) :
    n ∈ ((((newTable self).add n).delete env n).buckets ((newTable self).bucket n.sha)).entries ∧
    n ∈ ((((newTable self).add n).stuff env [n]).buckets ((newTable self).bucket n.sha)).entries ∧
    n ∈ ((((newTable self).add n).stuff env [n]).buckets (Table.saltedBucket env n.sha)).entries := by
  have hadd := Table.add_newTable_entries self n
  -- the salted bucket is empty: `add` filled the other one
  have hj : (((newTable self).add n).buckets (Table.saltedBucket env n.sha)).entries = [] := by
    rw [hadd, if_neg hidx.symm]
  have hstuff := Table.stuff_cons_fresh env ((newTable self).add n) n []
    (by rw [Table.self_add]; exact hself) (by rw [hj]; simp) (by rw [hj]; decide)
  refine ⟨?_, ?_, ?_⟩
  · rw [Table.entries_delete, if_neg hidx, hadd, if_pos rfl]
    simp
  · rw [hstuff, Table.stuff_nil, Table.setBucket_buckets, if_neg hidx, hadd, if_pos rfl]
    simp
  · rw [hstuff, Table.stuff_nil, Table.setBucket_buckets, if_pos rfl, hj]
    simp

theorem add_saltedBucket_mismatch_zeroEnv :
    peerNode ∈ ((((newTable localNode).add peerNode).delete zeroEnv peerNode).buckets 249).entries ∧
    peerNode ∈ ((((newTable localNode).add peerNode).stuff zeroEnv [peerNode]).buckets 249).entries ∧
    peerNode ∈ ((((newTable localNode).add peerNode).stuff zeroEnv [peerNode]).buckets 0).entries :=
  add_saltedBucket_mismatch zeroEnv localNode peerNode (by decide) (by decide)

/-! ### Subnet accounting -/

/-- The nodes bucket `b` holds, entries and replacements. -/
def bucket.nodes (b : bucket) : List Node := b.entries ++ b.replacements

/-- How many nodes of a list have a non-LAN address in the subnet `key`. -/
def subnetCount (s : DistinctNetSet) (nodes : List Node) (key : Bytes) : Nat :=
  nodes.countP fun m => !IsLAN m.IP && s.key m.IP == key

/-- The accounting the subnet limits rest on: each count is the number of non-LAN nodes of its
subnet, in the whole table and in each bucket. -/
def Table.IPAccounting (tab : Table) : Prop :=
  ∀ key, tab.ips.members key =
      ((List.range nBuckets.toNat).map fun k => subnetCount tab.ips (tab.buckets k).nodes key).sum ∧
    ∀ k < nBuckets.toNat,
      (tab.buckets k).ips.members key = subnetCount (tab.buckets k).ips (tab.buckets k).nodes key

theorem logdist_le (a b : Bytes) : logdist a b ≤ a.length * 8 := Nat.sub_le _ _

/-- The salted bucket is one of the table's. -/
theorem saltedBucket_lt (env : Env) (sha : Bytes) :
    Table.saltedBucket env sha < nBuckets.toNat := by
  have h := logdist_le env.logdistS1 (env.Keccak256 (sha ++ env.logdistS2))
  rw [env.length_logdistS1] at h
  unfold Table.saltedBucket
  simp only [nBuckets, hashBits]
  omega

/-- A bucket's nodes of a subnet are among the table's. -/
theorem subnetCount_le_sum (tab : Table) (key : Bytes) {k : Nat} (hk : k < nBuckets.toNat) :
    subnetCount tab.ips (tab.buckets k).nodes key ≤
      ((List.range nBuckets.toNat).map fun k => subnetCount tab.ips (tab.buckets k).nodes key).sum :=
  List.le_sum_of_mem (List.mem_map.mpr ⟨k, List.mem_range.mpr hk, rfl⟩)

/-- The empty table keeps its accounts, and `stuff` breaks them at the first non-LAN node: it
files the node without counting its subnet. -/
theorem stuff_breaks_IPAccounting (env : Env) (self n : Node) (hself : n.ID ≠ self.ID)
    (hlan : IsLAN n.IP = false) :
    (newTable self).IPAccounting ∧ ¬ ((newTable self).stuff env [n]).IPAccounting := by
  refine ⟨fun key => ⟨?_, fun k _ => ?_⟩, fun hacc => ?_⟩
  · simp [newTable, bucket.nodes, subnetCount]
  · simp [newTable, bucket.nodes, subnetCount]
  have hstuff := Table.stuff_cons_fresh env (newTable self) n [] hself (by simp [newTable])
    (by simp [newTable, bucketSize])
  rw [Table.stuff_nil] at hstuff
  obtain ⟨htab, -⟩ := hacc ((newTable self).ips.key n.IP)
  -- the salted bucket holds `n`, whose subnet the table still counts as empty
  have hle := subnetCount_le_sum ((newTable self).stuff env [n]) ((newTable self).ips.key n.IP)
    (saltedBucket_lt env n.sha)
  rw [← htab, hstuff] at hle
  simp [subnetCount, bucket.nodes, newTable, hlan] at hle

theorem stuff_breaks_IPAccounting_zeroEnv :
    (newTable localNode).IPAccounting ∧
      ¬ ((newTable localNode).stuff zeroEnv [peerNode]).IPAccounting :=
  stuff_breaks_IPAccounting zeroEnv localNode peerNode (by decide) (by decide)

end Discover
end Ethcore
