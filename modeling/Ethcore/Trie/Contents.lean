import Ethcore.Trie.Trie
import Ethcore.Trie.Canon

/-!
# What a trie in memory stores: `trie.go` refines a finite map

A trie built by `TryUpdate` and `TryDelete` on an empty trie, with no commit in between, has
no hash nodes: every node is in memory.  Such a node stores a map from hex keys to values
(`Node.contents`): a value node holds the empty key, a short node puts its child's map under
its key, a full node branches on the first nibble.

The walks of `trie.go` read hex keys, nibbles closed by the terminator `16`, and rely on the
shape the walks themselves keep (`Open`, `Closed`): a value node sits exactly where the
terminator has been read, at the end of a short node's key or in the value slot `16` of a
full node, and the other keys of short nodes are nibbles.  On such nodes, with fuel for the
length of the key:

* `tryGet` reads the map (`tryGet_open`),
* `insert` of a value node updates it (`insert_open`),
* `delete` removes the key from it (`delete_open`),

and the last two keep the shape.  The shape allows what the source never builds from an empty
trie (a short node over another, a full node with one child): the refinement does not need
the canonical form, only that the terminator is where the walks read it.
-/

namespace Ethcore
namespace Trie

open PrefixMap

/-- The map stored below a node in memory; a hash node stands for a node in the database
and stores nothing here. -/
def Node.contents : Node → Contents
  | .nil => empty
  | .valueNode v => single [] v
  | .shortNode k c _ => under k c.contents
  | .fullNode cs _ => fullContents fun i => (cs i).contents
  | .hashNode _ => empty

/-- A node reached with the key used up, at the end of a short node's key that ends in the
terminator or in the value slot of a full node: nothing, or a value. -/
inductive Closed : Node → Prop
  | nil : Closed .nil
  | value (v : Bytes) : Closed (.valueNode v)

/-- A node reached with nibbles and the terminator left to read. -/
inductive Open : Node → Prop
  | nil : Open .nil
  /-- A short node whose key reads the terminator holds a value. -/
  | leaf (ns v : Bytes) (f : NodeFlag) : Nibbles ns →
      Open (.shortNode (ns ++ [16]) (.valueNode v) f)
  | ext (ns : Bytes) (c : Node) (f : NodeFlag) : ns ≠ [] → Nibbles ns → Open c →
      Open (.shortNode ns c f)
  | full (cs : Fin 17 → Node) (f : NodeFlag) : (∀ i : Fin 17, i.val < 16 → Open (cs i)) →
      Closed (cs 16) → Open (.fullNode cs f)

/-! ### Hex keys -/

section Keys

theorem not_mem_16 {ns : Bytes} (hns : Nibbles ns) : (16 : UInt8) ∉ ns :=
  fun h => absurd (hns 16 h) (by decide)

/-- A key of nibbles that a hex key starts with does not reach its terminator. -/
theorem Nibbles.prefix_of_prefix_key {ms ns : Bytes} (hms : Nibbles ms)
    (h : ms <+: ns ++ [16]) : ms <+: ns := by
  rcases List.prefix_concat_iff.mp h with rfl | h
  · exact absurd (hms 16 (by simp)) (by decide)
  · exact h

/-- A key that reads the terminator and that a hex key starts with is that key. -/
theorem Nibbles.eq_of_prefix_key {ms ns : Bytes} (hns : Nibbles ns)
    (h : ms ++ [16] <+: ns ++ [16]) : ms = ns := by
  rcases List.prefix_concat_iff.mp h with h | h
  · exact List.append_cancel_right h
  · exact absurd ((h.subset) (by simp)) (not_mem_16 hns)

theorem Nibbles.append {ms ns : Bytes} (hms : Nibbles ms) (hns : Nibbles ns) :
    Nibbles (ms ++ ns) := by
  intro x hx
  rcases List.mem_append.mp hx with hx | hx
  · exact hms x hx
  · exact hns x hx

theorem Nibbles.drop {ns : Bytes} (hns : Nibbles ns) (m : Nat) : Nibbles (ns.drop m) :=
  fun x hx => hns x (List.mem_of_mem_drop hx)

theorem Nibbles.take {ns : Bytes} (hns : Nibbles ns) (m : Nat) : Nibbles (ns.take m) :=
  fun x hx => hns x (List.mem_of_mem_take hx)

/-- The test of `tryGet` on a short node's key: the key left does not start with it. -/
theorem not_prefix_iff {k r : Bytes} :
    (r.length < k.length ∨ k ≠ r.take k.length) ↔ ¬ k <+: r := by
  rw [List.prefix_iff_eq_take]
  constructor
  · rintro (h | h) e
    · have := congrArg List.length e
      simp only [List.length_take] at this
      omega
    · exact h e
  · intro h
    exact .inr h

attribute [local simp] prefixLen in
theorem prefixLen_le (a b : Bytes) : prefixLen a b ≤ a.length ∧ prefixLen a b ≤ b.length := by
  induction a generalizing b with
  | nil => simp
  | cons x xs ih =>
    cases b with
    | nil => simp
    | cons y ys =>
      have := ih ys
      simp only [prefixLen]
      split
      · simp only [List.length_cons]
        omega
      · simp

theorem take_prefixLen (a b : Bytes) : a.take (prefixLen a b) = b.take (prefixLen a b) := by
  induction a generalizing b with
  | nil => simp [prefixLen]
  | cons x xs ih =>
    cases b with
    | nil => simp [prefixLen]
    | cons y ys =>
      simp only [prefixLen]
      split
      · rename_i h
        subst h
        simp [ih ys]
      · simp

/-- Where the common prefix ends inside both, they differ. -/
theorem getElem_prefixLen_ne (a b : Bytes) (ha : prefixLen a b < a.length)
    (hb : prefixLen a b < b.length) : a[prefixLen a b] ≠ b[prefixLen a b] := by
  induction a generalizing b with
  | nil => simp at ha
  | cons x xs ih =>
    cases b with
    | nil => simp at hb
    | cons y ys =>
      simp only [prefixLen] at ha hb ⊢
      split
      · rename_i h
        rw [if_pos h] at ha hb
        simp only [List.getElem_cons_succ]
        exact ih ys (by simpa using ha) (by simpa using hb)
      · rename_i h
        simpa using h

/-- The same at `m`, the length of the common prefix: the bytes where two keys part. -/
theorem getElem_ne_of_prefixLen {a b : Bytes} {m : Nat} (hm : prefixLen a b = m)
    (ha : m < a.length) (hb : m < b.length) : b[m] ≠ a[m] := by
  subst hm
  exact (getElem_prefixLen_ne a b ha hb).symm

/-- A non-empty part of a hex key that stops before its terminator: nibbles. -/
theorem Nibbles.take_key {ns : Bytes} (hns : Nibbles ns) {m : Nat} (hm0 : m ≠ 0)
    (hm : m < (ns ++ [16]).length) :
    Nibbles ((ns ++ [16]).take m) ∧ (ns ++ [16]).take m ≠ [] := by
  refine ⟨?_, ?_⟩
  · rw [List.take_append_of_le_length (by simp at hm; omega)]
    exact hns.take m
  · simp only [ne_eq, List.take_eq_nil_iff, not_or]
    exact ⟨hm0, by simp⟩

theorem prefixLen_of_isPrefixOf {a b : Bytes} (h : b <+: a) : prefixLen a b = b.length := by
  obtain ⟨r, rfl⟩ := h
  induction b with
  | nil => simp [prefixLen]
  | cons x xs ih => simp [prefixLen, ih]

theorem prefix_of_prefixLen_eq {a b : Bytes} (h : prefixLen a b = b.length) : b <+: a := by
  rw [List.prefix_iff_eq_take]
  have := take_prefixLen a b
  rw [h, List.take_length] at this
  exact this.symm

end Keys

/-! ### The map of each kind of node -/

section Maps

@[simp] theorem contents_nil : Node.nil.contents = empty := rfl

@[simp] theorem contents_valueNode (v : Bytes) : (Node.valueNode v).contents = single [] v := rfl

@[simp] theorem contents_shortNode (k : Bytes) (c : Node) (f : NodeFlag) :
    (Node.shortNode k c f).contents = under k c.contents := rfl

@[simp] theorem contents_fullNode (cs : Fin 17 → Node) (f : NodeFlag) :
    (Node.fullNode cs f).contents = fullContents fun i => (cs i).contents := rfl

theorem fullContents_cons_of_lt (Ms : Fin 17 → Contents) {b : UInt8} (h : b.toNat < 17)
    (k : Bytes) : fullContents Ms (b :: k) = Ms ⟨b.toNat, h⟩ k := by
  simp [fullContents, h]

theorem below_fullContents (Ms : Fin 17 → Contents) {b : UInt8} (h : b.toNat < 17) :
    below [b] (fullContents Ms) = Ms ⟨b.toNat, h⟩ := by
  funext k
  exact fullContents_cons_of_lt Ms h k

theorem fullContents_empty : fullContents (fun _ => empty) = empty := by
  funext k
  cases k with
  | nil => rfl
  | cons b k =>
    by_cases h : b.toNat < 17
    · rw [fullContents_cons_of_lt _ h]
      rfl
    · simp [fullContents]

/-- A new slot `b` of a full node is the branch on `b` of the new map. -/
theorem fullContents_update (Ms : Fin 17 → Contents) {b : UInt8} (h : b.toNat < 17)
    (M : Contents) :
    fullContents (Function.update Ms ⟨b.toNat, h⟩ M) =
      branch (Function.update (fun c => below [c] (fullContents Ms)) b M) := by
  funext k
  cases k with
  | nil => rfl
  | cons c k =>
    rw [branch_cons]
    by_cases hc : c = b
    · subst hc
      rw [fullContents_cons_of_lt _ h, Function.update_self, Function.update_self]
    · rw [Function.update_of_ne hc, below_apply, List.singleton_append]
      by_cases hlt : c.toNat < 17
      · have hne : (⟨c.toNat, hlt⟩ : Fin 17) ≠ ⟨b.toNat, h⟩ := by
          intro e
          exact hc (UInt8.toNat_inj.mp (Fin.mk.inj_iff.mp e))
        rw [fullContents_cons_of_lt _ hlt, fullContents_cons_of_lt _ hlt,
          Function.update_of_ne hne]
      · simp [fullContents, hlt]

/-- Updating a key below slot `b` updates the slot. -/
theorem fullContents_update_cons (Ms : Fin 17 → Contents) {b : UInt8} (h : b.toNat < 17)
    (k : Bytes) (x : Option Bytes) :
    fullContents (Function.update Ms ⟨b.toNat, h⟩ (Function.update (Ms ⟨b.toNat, h⟩) k x)) =
      Function.update (fullContents Ms) (b :: k) x := by
  conv_rhs => rw [eq_branch_below (show fullContents Ms [] = none from rfl)]
  rw [update_branch, below_fullContents Ms h, fullContents_update]

/-- A full node with two slots `b₁ ≠ b₂` filled is the branch on them. -/
theorem fullContents_two {b₁ b₂ : UInt8} (h₁ : b₁.toNat < 17) (h₂ : b₂.toNat < 17)
    (M₁ M₂ : Contents) :
    fullContents (Function.update (Function.update (fun _ => empty) ⟨b₁.toNat, h₁⟩ M₁)
        ⟨b₂.toNat, h₂⟩ M₂) =
      branch (Function.update (Function.update (fun _ => empty) b₁ M₁) b₂ M₂) := by
  rw [fullContents_update, fullContents_update, fullContents_empty]
  rfl

/-- A full node left with one child stores that child's map below its byte. -/
theorem fullContents_single {cs : Fin 17 → Node} {pos : Fin 17}
    (h : (List.finRange 17).filter (fun i => !(cs i).isNil) = [pos]) :
    fullContents (fun i => (cs i).contents) = under [UInt8.ofNat pos.val] (cs pos).contents := by
  have hnil : ∀ i, i ≠ pos → (cs i).contents = empty := by
    intro i hi
    have : (cs i).isNil = true := by
      by_contra hc
      have hmem : i ∈ (List.finRange 17).filter (fun i => !(cs i).isNil) :=
        List.mem_filter.mpr ⟨List.mem_finRange i, by simpa using hc⟩
      rw [h, List.mem_singleton] at hmem
      exact hi hmem
    cases hci : cs i <;> simp_all [Node.isNil]
  have hpos : (UInt8.ofNat pos.val).toNat = pos.val := by
    rw [UInt8.toNat_ofNat']
    exact Nat.mod_eq_of_lt (by omega)
  funext k
  cases k with
  | nil => exact (under_of_not_isPrefixOf (by simp) _).symm
  | cons b k =>
    by_cases hb : b = UInt8.ofNat pos.val
    · subst hb
      have hunder : under [UInt8.ofNat pos.val] (cs pos).contents (UInt8.ofNat pos.val :: k) =
          (cs pos).contents k := under_append [_] k _
      rw [fullContents_cons_of_lt _ (by omega), hunder]
      congr 2
      exact Fin.ext hpos
    · have hnp : ¬ [UInt8.ofNat pos.val] <+: b :: k := by simpa using Ne.symm hb
      rw [under_of_not_isPrefixOf hnp]
      by_cases hlt : b.toNat < 17
      · rw [fullContents_cons_of_lt _ hlt, hnil]
        · rfl
        · intro e
          apply hb
          rw [← e]
          exact UInt8.toNat_inj.mp (by rw [UInt8.toNat_ofNat']; simp)
      · simp [fullContents, hlt]

theorem contents_update (cs : Fin 17 → Node) (j : Fin 17) (n : Node) :
    (fun i => (Function.update cs j n i).contents) =
      Function.update (fun i => (cs i).contents) j n.contents := by
  funext i
  by_cases hi : i = j
  · subst hi
    simp
  · simp [Function.update_of_ne hi]

theorem Closed.contents_eq {n : Node} (hn : Closed n) (k : Bytes) (hk : k ≠ []) :
    n.contents k = none := by
  cases hn with
  | nil => rfl
  | value v => exact single_of_ne hk v

end Maps

/-! ### `tryGet` reads the map -/

section Get

variable (t : Trie)

attribute [local simp] Trie.tryGet in
/-- A value node answers any key left: where the key is used up, that is its map. -/
theorem tryGet_closed {n : Node} (hn : Closed n) {fuel : Nat} (hfuel : 0 < fuel) (key : Bytes)
    (pos : Nat) : t.tryGet fuel n key pos = some (.ok (n.contents [], n, false)) := by
  obtain ⟨fuel, rfl⟩ : ∃ f, fuel = f + 1 := ⟨fuel - 1, by omega⟩
  cases hn <;> simp

theorem tryGet_open {fuel : Nat} {n : Node} (hn : Open n) {key ns : Bytes} {pos : Nat}
    (hns : Nibbles ns) (hkey : key.drop pos = ns ++ [16]) (hfuel : ns.length + 1 < fuel) :
    t.tryGet fuel n key pos = some (.ok (n.contents (ns ++ [16]), n, false)) := by
  -- induction on the fuel: each step reads at least one nibble of the key
  induction fuel generalizing n ns pos with
  | zero => omega
  | succ fuel ih =>
    have hlen : key.length - pos = ns.length + 1 := by
      rw [← List.length_drop, hkey, List.length_append, List.length_singleton]
    cases hn with
    | nil => simp [Trie.tryGet]
    | leaf ms v f hms =>
      by_cases hp : ms ++ [16] <+: ns ++ [16]
      · -- the key is the leaf's: its value
        obtain rfl := Nibbles.eq_of_prefix_key hns hp
        have hcond : ¬ (key.length - pos < (ms ++ [16]).length ∨
            ms ++ [16] ≠ (key.drop pos).take (ms ++ [16]).length) := by
          rw [← List.length_drop, hkey]
          exact Iff.mpr (Iff.not not_prefix_iff) (not_not.mpr (List.prefix_refl _))
        have hval : under (ms ++ [16]) (single [] v) (ms ++ [16]) = some v := by
          have := under_append (ms ++ [16]) [] (single [] v)
          rw [List.append_nil] at this
          rw [this, single_self]
        rw [Trie.tryGet, if_neg hcond, tryGet_closed t (.value v) (by omega)]
        simp [hval]
      · have hcond : key.length - pos < (ms ++ [16]).length ∨
            ms ++ [16] ≠ (key.drop pos).take (ms ++ [16]).length := by
          rw [← List.length_drop, hkey]
          exact Iff.mpr not_prefix_iff hp
        rw [Trie.tryGet, if_pos hcond, contents_shortNode, under_of_not_isPrefixOf hp]
    | ext ms c f hne hms hc =>
      by_cases hp : ms <+: ns ++ [16]
      · -- the key goes on below the short node
        obtain ⟨ns', rfl⟩ := hms.prefix_of_prefix_key hp
        have hcond : ¬ (key.length - pos < ms.length ∨ ms ≠ (key.drop pos).take ms.length) := by
          rw [← List.length_drop, hkey, List.append_assoc]
          exact Iff.mpr (Iff.not not_prefix_iff) (not_not.mpr (List.prefix_append _ _))
        have hkey' : key.drop (pos + ms.length) = ns' ++ [16] := by
          rw [← List.drop_drop, hkey, List.append_assoc, List.drop_left]
        have hms' : ms.length ≠ 0 := by simpa using hne
        have hlt : ns'.length + 1 < fuel := by
          simp only [List.length_append] at hfuel
          omega
        rw [Trie.tryGet, if_neg hcond, ih hc (fun x hx => hns x (List.mem_append_right _ hx)) hkey' hlt]
        simp [List.append_assoc]
      · have hcond : key.length - pos < ms.length ∨ ms ≠ (key.drop pos).take ms.length := by
          rw [← List.length_drop, hkey]
          exact Iff.mpr not_prefix_iff hp
        rw [Trie.tryGet, if_pos hcond, contents_shortNode, under_of_not_isPrefixOf hp]
    | full cs f hcs h16 =>
      have hget : key[pos]? = (ns ++ [16]).head? := by
        rw [List.head?_eq_getElem?, ← hkey, List.getElem?_drop, Nat.add_zero]
      cases ns with
      | nil =>
        -- the terminator: the value slot
        have h16' : (16 : UInt8).toNat < 17 := by decide
        have h16c : Closed (cs ⟨(16 : UInt8).toNat, h16'⟩) := h16
        have hf : 0 < fuel := by simpa using hfuel
        rw [Trie.tryGet, hget]
        simp only [List.nil_append, List.head?_cons, Trie.child, Trie.setChild, h16', dite_true]
        rw [tryGet_closed t h16c hf]
        simp [fullContents_cons_of_lt _ h16']
      | cons b ns' =>
        have hb : b.toNat < 16 := by
          have := hns b (by simp)
          exact this
        have hb' : b.toNat < 17 := by omega
        have hkey' : key.drop (pos + 1) = ns' ++ [16] := by
          rw [← List.drop_drop, hkey, List.cons_append, List.drop_one, List.tail_cons]
        have hlt : ns'.length + 1 < fuel := by
          simp only [List.length_cons] at hfuel
          omega
        rw [Trie.tryGet, hget]
        simp only [List.cons_append, List.head?_cons, Trie.child, Trie.setChild, hb', dite_true]
        rw [ih (hcs ⟨b.toNat, hb'⟩ hb) (fun x hx => hns x (by simp [hx])) hkey' hlt]
        simp [fullContents_cons_of_lt _ hb']

end Get

/-! ### The shape of what `insert` and `delete` build -/

section Shape

/-- The child of a full node at a key byte: below a nibble an open node, in the value slot a
closed one. -/
def Slot (b : UInt8) (c : Node) : Prop := (b.toNat < 16 ∧ Open c) ∨ (b = 16 ∧ Closed c)

theorem Slot.lt {b : UInt8} {c : Node} (h : Slot b c) : b.toNat < 17 := by
  rcases h with ⟨h, -⟩ | ⟨rfl, -⟩
  · omega
  · decide

theorem Open.fullNode_nil (f : NodeFlag) : Open (.fullNode (fun _ => .nil) f) :=
  .full _ _ (fun _ _ => .nil) .nil

/-- A full node keeps its shape when a slot gets a child that fits it. -/
theorem Open.full_update {cs : Fin 17 → Node} {f : NodeFlag} (hn : Open (.fullNode cs f))
    {b : UInt8} {c : Node} (hs : Slot b c) (h : b.toNat < 17) (f' : NodeFlag) :
    Open (.fullNode (Function.update cs ⟨b.toNat, h⟩ c) f') := by
  cases hn with
  | full _ _ hcs h16 =>
    refine .full _ _ (fun i hi => ?_) ?_
    · by_cases e : i = ⟨b.toNat, h⟩
      · subst e
        rw [Function.update_self]
        rcases hs with ⟨-, hc⟩ | ⟨rfl, -⟩
        · exact hc
        · simp at hi
      · rw [Function.update_of_ne e]
        exact hcs i hi
    · by_cases e : (16 : Fin 17) = ⟨b.toNat, h⟩
      · rw [e, Function.update_self]
        rcases hs with ⟨hb, -⟩ | ⟨-, hc⟩
        · exact absurd (congrArg Fin.val e) (by simp; omega)
        · exact hc
      · rw [Function.update_of_ne e]
        exact h16

/-- Below byte `m` of an open short node's key, what the rest of the key leads to fits the
slot of that byte. -/
theorem Open.slot_rest {nkey : Bytes} {nval : Node} {f : NodeFlag}
    (hn : Open (.shortNode nkey nval f)) {m : Nat} (hm : m < nkey.length) (f' : NodeFlag) :
    Slot nkey[m]
      (if nkey.drop (m + 1) = [] then nval else .shortNode (nkey.drop (m + 1)) nval f') := by
  cases hn with
  | leaf ms v _ hms =>
    by_cases hlt : m < ms.length
    · -- a nibble of the leaf's key: the rest still reads the terminator
      have hdrop : (ms ++ [16]).drop (m + 1) = ms.drop (m + 1) ++ [16] :=
        List.drop_append_of_le_length (by omega)
      rw [List.getElem_append_left hlt, hdrop, if_neg (by simp)]
      exact .inl ⟨hms _ (List.getElem_mem hlt), .leaf _ v _ (hms.drop _)⟩
    · -- the terminator: the value slot
      have hm' : m = ms.length := by simp at hm; omega
      subst hm'
      have hdrop : (ms ++ [16]).drop (ms.length + 1) = [] := by simp
      rw [List.getElem_append_right (Nat.le_refl _), hdrop, if_pos rfl]
      exact .inr ⟨by simp, .value v⟩
  | ext _ _ _ hne hms hc =>
    have hb : nkey[m].toNat < 16 := hms _ (List.getElem_mem hm)
    split
    · exact .inl ⟨hb, hc⟩
    · rename_i hdrop
      exact .inl ⟨hb, .ext _ nval _ hdrop (hms.drop _) hc⟩

theorem contents_rest (r : Bytes) (c : Node) (f : NodeFlag) :
    (if r = [] then c else Node.shortNode r c f).contents = under r c.contents := by
  split
  · rename_i h
    subst h
    simp
  · rfl

/-- What `insert` and `delete` return at a node in memory: a node of the same shape whose map
is the old one with `key` set to `x`, and the node itself when nothing changed. -/
structure Updated (n : Node) (key : Bytes) (x : Option Bytes) (r : Bool × Node) : Prop where
  shape : Open r.2
  contents : r.2.contents = Function.update n.contents key x
  clean : r.1 = false → r.2 = n

/-- A full node whose slot `b` was updated below `b`: the full node updated at `b :: k`. -/
theorem Updated.full {cs : Fin 17 → Node} {f : NodeFlag} (hn : Open (.fullNode cs f)) {b : UInt8}
    (h : b.toNat < 17) {k : Bytes} {x : Option Bytes} {nn : Node} (hs : Slot b nn)
    (hc : nn.contents = Function.update (cs ⟨b.toNat, h⟩).contents k x) (f' : NodeFlag) :
    Updated (.fullNode cs f) (b :: k) x (true, .fullNode (Function.update cs ⟨b.toNat, h⟩ nn) f') where
  shape := hn.full_update hs h f'
  contents := by
    rw [contents_fullNode, contents_update, hc, contents_fullNode, fullContents_update_cons]
  clean h := absurd h (by simp)

/-- A full node whose slot `b` did not change: the full node itself. -/
theorem Updated.full_same {cs : Fin 17 → Node} {f : NodeFlag} (hn : Open (.fullNode cs f))
    {b : UInt8} (h : b.toNat < 17) {k : Bytes} {x : Option Bytes}
    (hc : (cs ⟨b.toNat, h⟩).contents = Function.update (cs ⟨b.toNat, h⟩).contents k x) :
    Updated (.fullNode cs f) (b :: k) x (false, .fullNode cs f) where
  shape := hn
  contents := by
    rw [contents_fullNode, ← fullContents_update_cons _ h, ← hc, Function.update_eq_self]
  clean _ := rfl

/-- Where the key is used up, a value replaces what was there. -/
theorem Closed.update_nil {n : Node} (hn : Closed n) (v : Bytes) :
    Function.update n.contents [] (some v) = single [] v := by
  cases hn with
  | nil => exact update_empty [] v
  | value u => rw [contents_valueNode, ← update_empty, ← update_empty, Function.update_idem]

end Shape

/-! ### `insert` updates the map -/

section Insert

variable (t : Trie)

attribute [local simp] Trie.insert in
/-- `insert` into nothing: the value, under a short node for the key left. -/
theorem insert_nil {fuel : Nat} (hfuel : 0 < fuel) (pfx key : Bytes) (value : Node) :
    t.insert fuel .nil pfx key value =
      some (.ok (true, if key = [] then value else .shortNode key value t.newFlag)) := by
  obtain ⟨fuel, rfl⟩ : ∃ f, fuel = f + 1 := ⟨fuel - 1, by omega⟩
  by_cases hk : key = []
  · subst hk
    simp
  · have hlen : key.length ≠ 0 := by simpa using hk
    simp [hlen, hk]

/-- `insert` where the key is used up: the value node, clean when the value was there. -/
theorem insert_closed {n : Node} (hn : Closed n) {fuel : Nat} (hfuel : 0 < fuel) (pfx v : Bytes) :
    ∃ dirty, t.insert fuel n pfx [] (.valueNode v) = some (.ok (dirty, .valueNode v)) ∧
      (dirty = false → Node.valueNode v = n) := by
  obtain ⟨fuel, rfl⟩ : ∃ f, fuel = f + 1 := ⟨fuel - 1, by omega⟩
  cases hn with
  | nil => exact ⟨true, by simp [Trie.insert], by simp⟩
  | value u =>
    refine ⟨u != v, by simp [Trie.insert], fun h => ?_⟩
    rw [bne_eq_false_iff_eq] at h
    rw [h]

/-- Where a hex key parts from the key of an open short node, both go on. -/
theorem Open.parts {nkey : Bytes} {nval : Node} {f : NodeFlag} (hn : Open (.shortNode nkey nval f))
    {ns : Bytes} (hns : Nibbles ns) (hm : prefixLen (ns ++ [16]) nkey ≠ nkey.length) :
    prefixLen (ns ++ [16]) nkey < nkey.length ∧ prefixLen (ns ++ [16]) nkey < (ns ++ [16]).length := by
  obtain ⟨hle₁, hle₂⟩ := prefixLen_le (ns ++ [16]) nkey
  refine ⟨by omega, Nat.lt_of_le_of_ne hle₁ fun he => hm ?_⟩
  -- the whole hex key would be a prefix of the node's key, which only a leaf's key can be
  have hpre : ns ++ [16] <+: nkey := by
    rw [List.prefix_iff_eq_take]
    have := take_prefixLen (ns ++ [16]) nkey
    rw [he, List.take_length] at this
    exact this
  cases hn with
  | leaf ms _ _ hms =>
    obtain rfl := (Nibbles.eq_of_prefix_key hms hpre).symm
    simpa using he
  | ext _ _ _ _ hms _ => exact absurd (hpre.subset (by simp)) (not_mem_16 hms)

/-- The map of a new full node with two slots filled, below the common prefix of two keys. -/
theorem contents_branch {b₁ b₂ : UInt8} (h₁ : b₁.toNat < 17) (h₂ : b₂.toNat < 17)
    (c₁ c₂ : Node) (f : NodeFlag) :
    (Node.fullNode (Function.update (Function.update (fun _ => .nil) ⟨b₁.toNat, h₁⟩ c₁)
        ⟨b₂.toNat, h₂⟩ c₂) f).contents =
      branch (Function.update (Function.update (fun _ => empty) b₁ c₁.contents) b₂ c₂.contents) := by
  rw [contents_fullNode, contents_update, contents_update]
  exact fullContents_two h₁ h₂ _ _

/-- `insert` at a short node whose key parts from the new key: a full node with the old child
and the new value at the two bytes where the keys part, below their common prefix. -/
theorem insert_split {fuel : Nat} (hfuel : 0 < fuel) {nkey : Bytes} {nval : Node} {f : NodeFlag}
    (hn : Open (.shortNode nkey nval f)) {ns : Bytes} (hns : Nibbles ns)
    (hm : prefixLen (ns ++ [16]) nkey ≠ nkey.length) (pfx v : Bytes) :
    ∃ r, t.insert (fuel + 1) (.shortNode nkey nval f) pfx (ns ++ [16]) (.valueNode v) =
      some (.ok r) ∧ Updated (.shortNode nkey nval f) (ns ++ [16]) (some v) r := by
  obtain ⟨hmk, hmkey⟩ := hn.parts hns hm
  have hk : (ns ++ [16]).length ≠ 0 := by simp
  rw [Trie.insert, if_neg hk]
  simp only [if_neg hm, insert_nil t hfuel]
  generalize hkey : ns ++ [16] = key at hmk hmkey hm ⊢
  generalize hmdef : prefixLen key nkey = m at hmk hmkey hm ⊢
  -- the two children fit their slots
  have hs₁ := hn.slot_rest hmk t.newFlag
  have hs₂ := (hkey ▸ Open.leaf ns v f hns).slot_rest hmkey t.newFlag
  have h₁ := hs₁.lt
  have h₂ := hs₂.lt
  rw [List.getElem?_eq_getElem hmk, List.getElem?_eq_getElem hmkey]
  simp only [Trie.setChild, dif_pos h₁, dif_pos h₂]
  have hbranch := ((Open.fullNode_nil t.newFlag).full_update hs₁ h₁ t.newFlag).full_update hs₂ h₂
    t.newFlag
  -- the keys share `p`, then part on the bytes at `m`
  have hb : nkey[m] ≠ key[m] := getElem_ne_of_prefixLen hmdef hmkey hmk
  have hp : key.take m = nkey.take m := hmdef ▸ take_prefixLen key nkey
  have e₁ : nkey.take m ++ nkey[m] :: nkey.drop (m + 1) = nkey := by
    rw [← List.drop_eq_getElem_cons hmk, List.take_append_drop]
  have e₂ : key.take m ++ key[m] :: key.drop (m + 1) = key := by
    rw [← List.drop_eq_getElem_cons hmkey, List.take_append_drop]
  have hcontents : Function.update (under nkey nval.contents) key (some v) =
      under (key.take m) (branch (Function.update (Function.update (fun _ => empty) nkey[m]
        (under (nkey.drop (m + 1)) nval.contents)) key[m] (single (key.drop (m + 1)) v))) := by
    calc Function.update (under nkey nval.contents) key (some v)
        = Function.update (under (key.take m ++ nkey[m] :: nkey.drop (m + 1)) nval.contents)
            (key.take m ++ key[m] :: key.drop (m + 1)) (some v) := by rw [hp, e₁, ← hp, e₂]
      _ = _ := update_under_split _ _ _ hb _ v
  have hnode := contents_branch h₁ h₂
    (if nkey.drop (m + 1) = [] then nval else .shortNode (nkey.drop (m + 1)) nval t.newFlag)
    (if key.drop (m + 1) = [] then .valueNode v else
      .shortNode (key.drop (m + 1)) (.valueNode v) t.newFlag) t.newFlag
  rw [contents_rest, contents_rest, contents_valueNode, ← single_eq_under] at hnode
  split
  · -- the keys part at once: the full node replaces the short node
    rename_i hm0
    subst hm0
    refine ⟨_, rfl, hbranch, ?_, fun h => absurd h (by simp)⟩
    rw [contents_shortNode, hcontents, hnode, List.take_zero, under_nil]
  · -- a short node leads to the full node over the common prefix
    rename_i hm0
    subst hkey
    obtain ⟨hnib, hne⟩ := hns.take_key hm0 hmkey
    refine ⟨_, rfl, .ext _ _ _ hne hnib hbranch, ?_, fun h => absurd h (by simp)⟩
    rw [contents_shortNode, contents_shortNode, hcontents, hnode]

/-- **`insert` updates the map.**  On an open node and a hex key, with fuel for the key's
length, `insert` of a value node returns a node of the same shape whose map gives the key the
value, and the node itself when the value was there. -/
theorem insert_open {fuel : Nat} {n : Node} (hn : Open n) {ns : Bytes} (hns : Nibbles ns)
    (hfuel : ns.length + 1 < fuel) (pfx v : Bytes) :
    ∃ r, t.insert fuel n pfx (ns ++ [16]) (.valueNode v) = some (.ok r) ∧
      Updated n (ns ++ [16]) (some v) r := by
  -- induction on the fuel: every step below a node reads at least one nibble
  induction fuel generalizing n ns pfx with
  | zero => omega
  | succ fuel ih =>
    have hk : (ns ++ [16]).length ≠ 0 := by simp
    have hf : 0 < fuel := by omega
    cases hn with
    | nil =>
      refine ⟨_, by rw [Trie.insert, if_neg hk], .leaf ns v _ hns, ?_, fun h => absurd h (by simp)⟩
      rw [contents_shortNode, contents_valueNode, ← single_eq_under, contents_nil, update_empty]
    | leaf ms u f hms =>
      by_cases hm : prefixLen (ns ++ [16]) (ms ++ [16]) = (ms ++ [16]).length
      · -- the key is the leaf's: its value is replaced
        obtain rfl := Nibbles.eq_of_prefix_key hns (prefix_of_prefixLen_eq hm)
        obtain ⟨dirty, hins, hclean⟩ := insert_closed t (.value u) hf (pfx ++ (ms ++ [16])) v
        rw [Trie.insert, if_neg hk]
        simp only [hm, List.drop_length, List.take_length, if_true, hins]
        have hcontents : (Node.shortNode (ms ++ [16]) (.valueNode v) t.newFlag).contents =
            Function.update (Node.shortNode (ms ++ [16]) (.valueNode u) f).contents (ms ++ [16])
              (some v) := by
          rw [contents_shortNode, contents_shortNode, contents_valueNode, contents_valueNode,
            ← single_eq_under, ← single_eq_under, ← update_empty, ← update_empty,
            Function.update_idem]
        cases dirty with
        | false =>
          -- the same value: the node is kept
          obtain rfl : v = u := by simpa using hclean rfl
          exact ⟨(false, .shortNode (ms ++ [16]) (.valueNode v) f), by simp, .leaf ms v f hms,
            hcontents, fun _ => rfl⟩
        | true =>
          exact ⟨(true, .shortNode (ms ++ [16]) (.valueNode v) t.newFlag), by simp,
            .leaf ms v _ hms, hcontents, fun h => absurd h (by simp)⟩
      · exact insert_split t hf (.leaf ms u f hms) hns hm pfx v
    | ext ms c f hne hms hc =>
      by_cases hm : prefixLen (ns ++ [16]) ms = ms.length
      · -- the key goes on below the short node
        obtain ⟨ns', rfl⟩ := hms.prefix_of_prefix_key (prefix_of_prefixLen_eq hm)
        have hdrop : (ms ++ ns' ++ [16]).drop ms.length = ns' ++ [16] := by simp
        have hlt : ns'.length + 1 < fuel := by
          have : ms.length ≠ 0 := by simpa using hne
          simp only [List.length_append] at hfuel
          omega
        obtain ⟨⟨dirty, nn⟩, hins, hupd⟩ := ih hc (fun x hx => hns x (List.mem_append_right _ hx))
          hlt (pfx ++ (ms ++ ns' ++ [16]).take ms.length)
        rw [Trie.insert, if_neg hk]
        simp only [hm, hdrop, hins]
        cases dirty with
        | false =>
          obtain rfl : nn = c := hupd.clean rfl
          refine ⟨_, rfl, .ext ms nn f hne hms hc, ?_, fun _ => rfl⟩
          rw [contents_shortNode, List.append_assoc, update_under, ← hupd.contents]
        | true =>
          refine ⟨_, rfl, .ext ms nn _ hne hms hupd.shape, ?_, fun h => absurd h (by simp)⟩
          rw [contents_shortNode, contents_shortNode, List.append_assoc, update_under,
            hupd.contents]
      · exact insert_split t hf (.ext ms c f hne hms hc) hns hm pfx v
    | full cs f hcs h16 =>
      have hfull : Open (.fullNode cs f) := .full cs f hcs h16
      cases ns with
      | nil =>
        -- the terminator: the value goes to the value slot
        have h16' : (16 : UInt8).toNat < 17 := by decide
        have h16c : Closed (cs ⟨(16 : UInt8).toNat, h16'⟩) := h16
        obtain ⟨dirty, hins, hclean⟩ := insert_closed t h16c hf (pfx ++ [16]) v
        rw [List.nil_append] at hk ⊢
        -- (the equation lemmas of `insert` split on the key; its definition does not)
        rw [Trie.insert.eq_def]
        simp only [if_neg hk, Trie.child, Trie.setChild, h16', dite_true, hins]
        cases dirty with
        | false =>
          have hc := h16c.update_nil v
          rw [← hclean rfl, contents_valueNode] at hc
          exact ⟨_, by simp, Updated.full_same hfull h16' (by rw [← hclean rfl]; exact hc.symm)⟩
        | true =>
          exact ⟨_, by simp, Updated.full hfull h16' (.inr ⟨rfl, .value v⟩)
            (h16c.update_nil v).symm t.newFlag⟩
      | cons b ns' =>
        -- a nibble: the value goes below its slot
        have hb : b.toNat < 16 := hns b (by simp)
        have hb' : b.toNat < 17 := by omega
        have hlt : ns'.length + 1 < fuel := by
          simp only [List.length_cons] at hfuel
          omega
        obtain ⟨⟨dirty, nn⟩, hins, hupd⟩ := ih (hcs ⟨b.toNat, hb'⟩ hb)
          (fun x hx => hns x (by simp [hx])) hlt (pfx ++ [b])
        rw [Trie.insert.eq_def]
        simp only [List.cons_append, Trie.child, Trie.setChild, hb', dite_true, hins]
        cases dirty with
        | false =>
          obtain rfl : nn = cs ⟨b.toNat, hb'⟩ := hupd.clean rfl
          exact ⟨_, by simp, Updated.full_same hfull hb' hupd.contents⟩
        | true =>
          exact ⟨_, by simp, Updated.full hfull hb' (.inl ⟨hb, hupd.shape⟩) hupd.contents t.newFlag⟩

end Insert

/-! ### `delete` removes from the map -/

section Delete

variable (t : Trie)

attribute [local simp] Trie.delete in
/-- `delete` where the key is used up: nothing is left. -/
theorem delete_closed {n : Node} (hn : Closed n) {fuel : Nat} (hfuel : 0 < fuel) (pfx : Bytes) :
    ∃ dirty, t.delete fuel n pfx [] = some (.ok (dirty, .nil)) ∧ (dirty = false → Node.nil = n) := by
  obtain ⟨fuel, rfl⟩ : ∃ f, fuel = f + 1 := ⟨fuel - 1, by omega⟩
  cases hn with
  | nil => exact ⟨false, by simp, fun _ => rfl⟩
  | value u => exact ⟨true, by simp, fun h => absurd h (by simp)⟩

theorem Closed.update_nil_none {n : Node} (hn : Closed n) :
    Function.update n.contents [] none = empty := by
  cases hn with
  | nil => exact Function.update_eq_self_iff.mpr rfl
  | value u => exact update_single_self [] u

/-- A node in memory is its own resolution. -/
theorem Open.resolve {n : Node} (hn : Open n) (pfx : Bytes) : t.resolve n pfx = some (.ok n) := by
  cases hn <;> rfl

theorem Open.child {cs : Fin 17 → Node} {f : NodeFlag} (hn : Open (.fullNode cs f)) {i : Fin 17}
    (hi : i.val < 16) : Open (cs i) := by
  cases hn with
  | full _ _ hcs _ => exact hcs i hi

theorem Open.valueSlot {cs : Fin 17 → Node} {f : NodeFlag} (hn : Open (.fullNode cs f)) :
    Closed (cs 16) := by
  cases hn with
  | full _ _ _ h16 => exact h16

/-- A short node over an open short node takes its key in front of the lower one's (the
source's `concat`). -/
theorem Open.concat {ckey : Bytes} {cval : Node} {g : NodeFlag} (hc : Open (.shortNode ckey cval g))
    {ms : Bytes} (hms : Nibbles ms) (f : NodeFlag) : Open (.shortNode (ms ++ ckey) cval f) := by
  cases hc with
  | leaf ns v _ hns =>
    rw [← List.append_assoc]
    exact .leaf _ v f (hms.append hns)
  | ext _ _ _ hne hns hc' => exact .ext _ _ f (by simp [hne]) (hms.append hns) hc'

/-- The node a dirty `delete` returned, below the key of a short node. -/
theorem Updated.wrap {ms : Bytes} (hne : ms ≠ []) (hms : Nibbles ms) {c : Node} {f : NodeFlag}
    {rest : Bytes} {x : Option Bytes} {nn : Node} (hu : Updated c rest x (true, nn)) (f' : NodeFlag) :
    Updated (.shortNode ms c f) (ms ++ rest) x (true, .shortNode ms nn f') where
  shape := .ext ms nn f' hne hms hu.shape
  contents := by rw [contents_shortNode, contents_shortNode, update_under, hu.contents]
  clean h := absurd h (by simp)

/-- A short node that a dirty `delete` returned, merged with the short node above it. -/
theorem Updated.merge {ms : Bytes} (hne : ms ≠ []) (hms : Nibbles ms) {c : Node} {f : NodeFlag}
    {rest : Bytes} {x : Option Bytes} {ckey : Bytes} {cval : Node} {g : NodeFlag}
    (hu : Updated c rest x (true, .shortNode ckey cval g)) (f' : NodeFlag) :
    Updated (.shortNode ms c f) (ms ++ rest) x (true, .shortNode (ms ++ ckey) cval f') where
  shape := hu.shape.concat hms f'
  contents := by
    rw [contents_shortNode, ← under_under, ← contents_shortNode ckey cval g]
    exact (hu.wrap hne hms f').contents
  clean h := absurd h (by simp)

/-- A full node left with one child gives way to a node that stores the child below its byte. -/
theorem Updated.collapse {n : Node} {key : Bytes} {x : Option Bytes} {cs : Fin 17 → Node}
    {f : NodeFlag} (hu : Updated n key x (true, .fullNode cs f)) {pos : Fin 17}
    (h : (List.finRange 17).filter (fun i => !(cs i).isNil) = [pos]) {c : Node} (hc : Open c)
    (hcc : c.contents = under [UInt8.ofNat pos.val] (cs pos).contents) :
    Updated n key x (true, c) where
  shape := hc
  contents := by rw [hcc, ← fullContents_single h, ← contents_fullNode cs f]; exact hu.contents
  clean h := absurd h (by simp)

/-- `delete` at a short node whose key the key does not start with: nothing to remove. -/
theorem delete_apart {fuel : Nat} {nkey : Bytes} {nval : Node} {f : NodeFlag}
    (hn : Open (.shortNode nkey nval f)) {key : Bytes} (hm : prefixLen key nkey < nkey.length)
    (pfx : Bytes) :
    ∃ r, t.delete (fuel + 1) (.shortNode nkey nval f) pfx key = some (.ok r) ∧
      Updated (.shortNode nkey nval f) key none r := by
  have hnp : ¬ nkey <+: key := fun hp => absurd (prefixLen_of_isPrefixOf hp) (by omega)
  refine ⟨(false, .shortNode nkey nval f), by simp [Trie.delete, hm], hn, ?_, fun _ => rfl⟩
  rw [contents_shortNode, update_under_of_not_isPrefixOf hnp]

/-- The key byte of a slot below a nibble. -/
theorem nibbles_ofNat {pos : Fin 17} (h : pos.val ≠ 16) : Nibbles [UInt8.ofNat pos.val] := by
  intro x hx
  rw [List.mem_singleton.mp hx]
  exact UInt8.lt_iff_toNat_lt.mpr (by rw [UInt8.toNat_ofNat']; simp; omega)

/-- `delete` below slot `b` of an open full node: the full node itself when the slot did not
change, else the full node updated at the slot or, with one child left, a short node over
that child. -/
theorem delete_full {fuel : Nat} {cs : Fin 17 → Node} {f : NodeFlag} (hn : Open (.fullNode cs f))
    {b : UInt8} (hb : b.toNat < 17) {k pfx : Bytes} {dirty : Bool} {nn : Node}
    (hdel : t.delete fuel (cs ⟨b.toNat, hb⟩) (pfx ++ [b]) k = some (.ok (dirty, nn)))
    (hs : Slot b nn) (hc : nn.contents = Function.update (cs ⟨b.toNat, hb⟩).contents k none)
    (hclean : dirty = false → nn = cs ⟨b.toNat, hb⟩) :
    ∃ r, t.delete (fuel + 1) (.fullNode cs f) pfx (b :: k) = some (.ok r) ∧
      Updated (.fullNode cs f) (b :: k) none r := by
  rw [Trie.delete.eq_def]
  simp only [Trie.child, Trie.setChild, hb, dite_true, hdel]
  cases dirty with
  | false =>
    obtain rfl := hclean rfl
    exact ⟨_, by simp, Updated.full_same hn hb hc⟩
  | true => ?_
  have hu := Updated.full hn hb hs hc t.newFlag
  simp only [Bool.not_true, Bool.false_eq_true, if_false]
  generalize Function.update cs ⟨b.toNat, hb⟩ nn = cs' at hu ⊢
  split
  · -- one child left, at `pos`
    rename_i pos hpos
    have hnil : (cs' pos).isNil = false := by
      have hmem : pos ∈ (List.finRange 17).filter (fun i => !(cs' i).isNil) := by simp [hpos]
      simpa using (List.mem_filter.mp hmem).2
    split
    · -- below a nibble: a short node over the child, merged with it when it is short
      rename_i h16
      have hopen : Open (cs' pos) := hu.shape.child (by omega)
      split
      · rename_i heq
        rw [hopen.resolve] at heq
        cases heq
      · rename_i heq
        rw [hopen.resolve] at heq
        cases heq
      · rename_i ckey cval g heq
        rw [hopen.resolve, Option.some.injEq, Except.ok.injEq] at heq
        rw [heq] at hopen
        refine ⟨_, rfl, hu.collapse hpos (hopen.concat (nibbles_ofNat h16) t.newFlag) ?_⟩
        rw [heq, contents_shortNode, contents_shortNode, under_under]
        rfl
      · rename_i node _ heq
        rw [hopen.resolve, Option.some.injEq, Except.ok.injEq] at heq
        exact ⟨_, rfl, hu.collapse hpos (.ext _ _ _ (by simp) (nibbles_ofNat h16) hopen) rfl⟩
    · -- the value slot: a leaf whose key is the terminator
      rename_i h16
      obtain rfl : pos = 16 := Fin.ext (by simpa using h16)
      have hv := hu.shape.valueSlot
      cases hv16 : cs' 16 with
      | nil => rw [hv16] at hnil; cases hnil
      | valueNode v =>
        refine ⟨_, rfl, hu.collapse hpos ?_ (by rw [hv16]; rfl)⟩
        exact .leaf [] v _ (by simp [Nibbles])
      | shortNode _ _ _ => rw [hv16] at hv; cases hv
      | fullNode _ _ => rw [hv16] at hv; cases hv
      | hashNode _ => rw [hv16] at hv; cases hv
  · -- more children left: the full node stays
    exact ⟨_, rfl, hu⟩

/-- **`delete` removes from the map.**  On an open node and a hex key, with fuel for the key's
length, `delete` returns a node of the same shape whose map no longer has the key, and the
node itself when the key was not there. -/
theorem delete_open {fuel : Nat} {n : Node} (hn : Open n) {ns : Bytes} (hns : Nibbles ns)
    (hfuel : ns.length + 1 < fuel) (pfx : Bytes) :
    ∃ r, t.delete fuel n pfx (ns ++ [16]) = some (.ok r) ∧ Updated n (ns ++ [16]) none r := by
  -- induction on the fuel, as for `insert_open`
  induction fuel generalizing n ns pfx with
  | zero => omega
  | succ fuel ih =>
    have hf : 0 < fuel := by omega
    cases hn with
    | nil =>
      exact ⟨(false, .nil), by simp [Trie.delete], .nil,
        (Function.update_eq_self_iff.mpr rfl).symm, fun _ => rfl⟩
    | leaf ms u f hms =>
      by_cases hm : prefixLen (ns ++ [16]) (ms ++ [16]) < (ms ++ [16]).length
      · exact delete_apart t (.leaf ms u f hms) hm pfx
      · -- the leaf's key starts the key, so it is the key: the leaf goes
        have hpre := prefix_of_prefixLen_eq
          (Nat.le_antisymm (prefixLen_le (ns ++ [16]) (ms ++ [16])).2 (by omega))
        obtain rfl := Nibbles.eq_of_prefix_key hns hpre
        have hm' := prefixLen_of_isPrefixOf (List.prefix_refl (ms ++ [16]))
        refine ⟨(true, .nil), by simp [Trie.delete, hm'], .nil, ?_, fun h => absurd h (by simp)⟩
        rw [contents_nil, contents_shortNode, contents_valueNode, ← single_eq_under,
          update_single_self]
    | ext ms c f hne hms hc =>
      by_cases hm : prefixLen (ns ++ [16]) ms < ms.length
      · exact delete_apart t (.ext ms c f hne hms hc) hm pfx
      · -- the key goes on below the short node
        have hpre := prefix_of_prefixLen_eq (Nat.le_antisymm (prefixLen_le (ns ++ [16]) ms).2
          (by omega))
        obtain ⟨ns', rfl⟩ := hms.prefix_of_prefix_key hpre
        rw [List.append_assoc]
        have hm' : prefixLen (ms ++ (ns' ++ [16])) ms = ms.length :=
          prefixLen_of_isPrefixOf (List.prefix_append _ _)
        have hlen : ms.length ≠ (ms ++ (ns' ++ [16])).length := by simp
        have hlt : ns'.length + 1 < fuel := by
          have : ms.length ≠ 0 := by simpa using hne
          simp only [List.length_append] at hfuel
          omega
        obtain ⟨⟨dirty, nn⟩, hdel, hupd⟩ := ih hc (fun x hx => hns x (List.mem_append_right _ hx))
          hlt (pfx ++ ms)
        rw [Trie.delete]
        simp only [hm', Nat.lt_irrefl, if_false, hlen, List.drop_left, List.take_left, hdel]
        cases dirty with
        | false =>
          obtain rfl : nn = c := hupd.clean rfl
          refine ⟨_, rfl, .ext ms nn f hne hms hc, ?_, fun _ => rfl⟩
          rw [contents_shortNode, update_under, ← hupd.contents]
        | true =>
          simp only [Bool.not_true, Bool.false_eq_true, if_false]
          -- a short node below merges with this one
          split
          · exact ⟨_, rfl, hupd.merge hne hms t.newFlag⟩
          · exact ⟨_, rfl, hupd.wrap hne hms t.newFlag⟩
    | full cs f hcs h16 =>
      have hfull : Open (.fullNode cs f) := .full cs f hcs h16
      cases ns with
      | nil =>
        -- the terminator: the value slot is emptied
        have h16' : (16 : UInt8).toNat < 17 := by decide
        have h16c : Closed (cs ⟨(16 : UInt8).toNat, h16'⟩) := h16
        obtain ⟨dirty, hdel, hclean⟩ := delete_closed t h16c hf (pfx ++ [16])
        exact delete_full t hfull h16' hdel (.inr ⟨rfl, .nil⟩) h16c.update_nil_none.symm hclean
      | cons b ns' =>
        -- a nibble: the key is removed below its slot
        have hb : b.toNat < 16 := hns b (by simp)
        have hb' : b.toNat < 17 := by omega
        have hlt : ns'.length + 1 < fuel := by
          simp only [List.length_cons] at hfuel
          omega
        obtain ⟨⟨dirty, nn⟩, hdel, hupd⟩ := ih (hcs ⟨b.toNat, hb'⟩ hb)
          (fun x hx => hns x (by simp [hx])) hlt (pfx ++ [b])
        exact delete_full t hfull hb' hdel (.inl ⟨hb, hupd.shape⟩) hupd.contents hupd.clean

end Delete

end Trie
end Ethcore
