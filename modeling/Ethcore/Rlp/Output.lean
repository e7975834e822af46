import Ethcore.Rlp.Encode

/-!
# The output paths of `encode.go`

`EncodeToBytes` splices the recorded list headers into the string data in one copy
(`toBytes`).  `Encode` hands the same bytes to an `io.Writer` piece by piece
(`toWriter`): the string data up to each header, the header, and the string data after
the last header.  `EncodeToReader` returns the size of the output and an `encReader`,
whose `Read` copies the same pieces into the caller's buffer and keeps the part of a
piece that did not fit for the next call.

A writer is a state with a `Write` that either takes all the bytes it is given or fails
(the `io.Writer` contract allows a short write only together with an error); a failure
ends `toWriter` with that error.  A buffer handed to `Read` is given by its length, and
`Read` returns the bytes it copied and whether the call ended in `io.EOF`.

Both paths are compared with `spliceHeads` under one fact about the buffer: the header
offsets still ahead never decrease and never pass the end of the string data
(`OffsetsOrdered`).  The writer then writes exactly what `spliceHeads` copies
(`toWriterFrom_append`), and every `Read` returns a prefix of what the reader has still to
give (`EncReader.rest`), all of it once `io.EOF` is returned (`readLoop_spec`).

`Encode` on a writer that is itself an `encbuf` (the call from inside an `EncodeRLP`
method) writes into that buffer instead; that case belongs to the typed encoder and is not
modelled.  The pool the buffers come from only recycles memory.
-/

namespace Ethcore
namespace Rlp

/-- The header offsets from position `lo` on never decrease and stay at most `hi`. -/
def OffsetsOrdered (hi : Nat) : Nat → List ListHead → Prop
  | lo, [] => lo ≤ hi
  | lo, head :: heads => lo ≤ head.offset ∧ OffsetsOrdered hi head.offset heads

@[simp] theorem offsetsOrdered_nil (hi lo : Nat) : OffsetsOrdered hi lo [] ↔ lo ≤ hi := by
  rfl

@[simp] theorem offsetsOrdered_cons (hi lo : Nat) (head : ListHead) (heads : List ListHead) :
    OffsetsOrdered hi lo (head :: heads) ↔ lo ≤ head.offset ∧ OffsetsOrdered hi head.offset heads := by
  rfl

theorem OffsetsOrdered.le {hi : Nat} : ∀ {lo : Nat} {heads : List ListHead},
    OffsetsOrdered hi lo heads → lo ≤ hi
  | _, [], h => h
  | _, _ :: _, h => Nat.le_trans h.1 h.2.le

theorem OffsetsOrdered.mono {hi lo lo' : Nat} {heads : List ListHead} (hlo : lo' ≤ lo)
    (h : OffsetsOrdered hi lo heads) : OffsetsOrdered hi lo' heads := by
  cases heads with
  | nil => exact Nat.le_trans hlo h
  | cons head heads => exact ⟨Nat.le_trans hlo h.1, h.2⟩

theorem OffsetsOrdered.append {mid hi : Nat} {b : List ListHead} (hb : OffsetsOrdered hi mid b) :
    ∀ {lo : Nat} {a : List ListHead}, OffsetsOrdered mid lo a → OffsetsOrdered hi lo (a ++ b)
  | _, [], ha => hb.mono ha
  | _, _ :: _, ha => ⟨ha.1, append hb ha.2⟩

mutual
/-- The headers an item records lie in order within its string data. -/
theorem offsetsOrdered_heads : ∀ (v : Item) (o : Nat),
    OffsetsOrdered (o + v.strData.length) o (v.heads o)
  | .bytes _, o => by simp [Item.heads]
  | .list xs, o => by
      simp only [Item.heads, offsetsOrdered_cons, le_refl, true_and, Item.strData]
      exact offsetsOrdered_headsAll xs o

/-- The headers a sequence of items records lie in order within its string data. -/
theorem offsetsOrdered_headsAll : ∀ (xs : List Item) (o : Nat),
    OffsetsOrdered (o + (Item.strDataAll xs).length) o (Item.headsAll xs o)
  | [], o => by simp [Item.headsAll]
  | x :: xs, o => by
      have hxs := offsetsOrdered_headsAll xs (o + x.strData.length)
      simp only [Item.strDataAll, List.length_append, ← Nat.add_assoc] at hxs ⊢
      exact hxs.append (offsetsOrdered_heads x o)
end

/-- The buffer `writeInterface` fills for an item holds its headers in order. -/
theorem offsetsOrdered_writeInterface (v : Item) (hv : v.Fits) :
    OffsetsOrdered (writeInterface v Encbuf.empty).str.length 0
      (writeInterface v Encbuf.empty).lheads := by
  have h := offsetsOrdered_heads v 0
  rw [writeInterface_eq v _ hv]
  simpa [Encbuf.empty] using h

/-! ### The writer -/

section Writer

variable {σ ε : Type} (write : σ → Bytes → Except ε σ)

/-- The loop of `toWriter` from string position `strpos`: the string data before each
header if there is any, then the header; after the last header the rest of the string
data if there is any.  A failed write ends the loop with its error. -/
def toWriterFrom (str : Bytes) : Nat → List ListHead → σ → Except ε σ
  | strpos, [], out => if strpos < str.length then write out (str.drop strpos) else pure out
  | strpos, head :: heads, out => do
      let before := (str.drop strpos).take (head.offset - strpos)
      -- a write that does not fail took all of `before`: `strpos += n`
      let (strpos, out) ←
        if head.offset - strpos > 0 then (fun out => (strpos + before.length, out)) <$> write out before
        else pure (strpos, out)
      let out ← write out head.encode
      toWriterFrom str strpos heads out

/-- `toWriter`: the buffer's output handed to a writer. -/
def Encbuf.toWriter (w : Encbuf) (out : σ) : Except ε σ :=
  toWriterFrom write w.str 0 w.lheads out

/-- `Encode` to a writer that is not an `encbuf`: encode into a fresh buffer, then hand the
buffer's output to the writer. -/
def Encode (out : σ) (v : Item) : Except ε σ :=
  (writeInterface v Encbuf.empty).toWriter write out

/-- **The writer receives what `spliceHeads` copies.**  If every write succeeds and adds
its bytes to what the writer holds (`contents`), the loop succeeds and adds the spliced
output, as long as the headers ahead are in order within the string data. -/
theorem toWriterFrom_append (contents : σ → Bytes)
    (hw : ∀ s p, ∃ s', write s p = .ok s' ∧ contents s' = contents s ++ p) (str : Bytes) :
    ∀ (strpos : Nat) (heads : List ListHead) (out : σ),
      OffsetsOrdered str.length strpos heads →
      ∃ out', toWriterFrom write str strpos heads out = .ok out' ∧
        contents out' = contents out ++ Encbuf.spliceHeads str strpos heads := by
  intro strpos heads
  induction heads generalizing strpos with
  | nil =>
      intro out hord
      by_cases hlt : strpos < str.length
      · obtain ⟨out', hwrite, hout'⟩ := hw out (str.drop strpos)
        exact ⟨out', by simp [toWriterFrom, hlt, hwrite], by simp [Encbuf.spliceHeads, hout']⟩
      · have hdrop : str.drop strpos = [] := List.drop_eq_nil_of_le (by omega)
        exact ⟨out, by simp [toWriterFrom, hlt, pure, Except.pure], by
          simp [Encbuf.spliceHeads, hdrop]⟩
  | cons head heads ih =>
      intro out hord
      rw [offsetsOrdered_cons] at hord
      have hend : head.offset ≤ str.length := hord.2.le
      by_cases hpos : head.offset - strpos > 0
      · -- the string data before the header, then the header
        have hlen : strpos + ((str.drop strpos).take (head.offset - strpos)).length = head.offset := by
          simp only [List.length_take, List.length_drop]
          omega
        obtain ⟨out₁, hwrite₁, hout₁⟩ := hw out ((str.drop strpos).take (head.offset - strpos))
        obtain ⟨out₂, hwrite₂, hout₂⟩ := hw out₁ head.encode
        obtain ⟨out₃, hloop, hout₃⟩ := ih head.offset out₂ hord.2
        refine ⟨out₃, ?_, ?_⟩
        · simp only [toWriterFrom, if_pos hpos, hwrite₁]
          simp only [Functor.map, Except.map, bind, Except.bind, hlen, hwrite₂, hloop]
        · simp [Encbuf.spliceHeads, hout₃, hout₂, hout₁]
      · -- no string data before the header: it sits at the current position
        have hat : strpos = head.offset := by omega
        obtain ⟨out₂, hwrite₂, hout₂⟩ := hw out head.encode
        obtain ⟨out₃, hloop, hout₃⟩ := ih strpos out₂ (hat ▸ hord.2)
        refine ⟨out₃, ?_, ?_⟩
        · simp [toWriterFrom, hpos, hwrite₂, hloop, bind, Except.bind, pure, Except.pure]
        · simp [Encbuf.spliceHeads, hout₃, hout₂, ← hat]
end Writer

/-! ### The reader -/

/-- `encReader`: the buffer it reads from (`none` once `io.EOF` was seen), the index of the
list header it is at, its position in the string data, and the rest of a piece that did
not fit the last buffer. -/
structure EncReader where
  buf : Option Encbuf
  lhpos : Nat
  strpos : Nat
  piece : Option Bytes

namespace EncReader

/-- `next`: the next piece to be read (`none` at `io.EOF`) and the reader after it. -/
def next (r : EncReader) : Option Bytes × EncReader :=
  match r.buf, r.piece with
  | none, _ => (none, r)
  | some _, some piece => (some piece, r)
  | some buf, none =>
      if h : r.lhpos < buf.lheads.length then
        let head := buf.lheads[r.lhpos]
        let sizebefore := head.offset - r.strpos
        if sizebefore > 0 then
          (some ((buf.str.drop r.strpos).take sizebefore), { r with strpos := r.strpos + sizebefore })
        else (some head.encode, { r with lhpos := r.lhpos + 1 })
      else if r.strpos < buf.str.length then
        -- string data at the end, after all list headers
        (some (buf.str.drop r.strpos), { r with strpos := buf.str.length })
      else (none, r)

/-- A bound on the pieces `next` can still return: the kept piece, two for each header
ahead, and one for string data before the next header or at the end. -/
def pending (r : EncReader) : Nat :=
  match r.buf with
  | none => 0
  | some buf =>
      (if r.piece.isSome then 1 else 0) + 2 * (buf.lheads.length - r.lhpos) +
        if r.strpos < ((buf.lheads[r.lhpos]?).map ListHead.offset).getD buf.str.length then 1
        else 0

/-- Every piece `next` returns brings the reader closer to its end. -/
theorem pending_next_lt {r r' : EncReader} {p : Bytes} (h : r.next = (some p, r')) :
    { r' with piece := none }.pending < r.pending := by
  unfold next at h
  split at h
  · simp at h
  · rename_i buf piece hbuf hpiece
    obtain ⟨-, rfl⟩ := Prod.mk.inj h
    simp [pending, hbuf, hpiece]
  · rename_i buf hbuf hpiece
    split at h
    · rename_i hlt
      dsimp only at h
      split at h
      · -- string data before the header: the position reaches the header
        rename_i hpos
        obtain ⟨-, rfl⟩ := Prod.mk.inj h
        simp only [pending, hbuf, hpiece, List.getElem?_eq_getElem hlt, Option.isSome_none,
          Bool.false_eq_true, if_false, Option.map_some, Option.getD_some]
        split_ifs <;> omega
      · -- the header itself: one header fewer ahead
        obtain ⟨-, rfl⟩ := Prod.mk.inj h
        simp only [pending, hbuf, hpiece, List.getElem?_eq_getElem hlt, Option.isSome_none,
          Bool.false_eq_true, if_false, Option.map_some, Option.getD_some]
        split_ifs <;> omega
    · rename_i hge
      split at h
      · rename_i hend
        obtain ⟨-, rfl⟩ := Prod.mk.inj h
        simp [pending, hbuf, hpiece, List.getElem?_eq_none (Nat.le_of_not_lt hge), hend]
      · simp at h

/-- What the reader has still to return: the kept piece, then the spliced output from its
position on. -/
def rest (r : EncReader) : Bytes :=
  match r.buf with
  | none => []
  | some buf => r.piece.getD [] ++ Encbuf.spliceHeads buf.str r.strpos (buf.lheads.drop r.lhpos)

/-- The headers ahead of the reader lie in order, from its position to the end of the
string data. -/
def Valid (r : EncReader) : Prop :=
  ∀ buf, r.buf = some buf → OffsetsOrdered buf.str.length r.strpos (buf.lheads.drop r.lhpos)

@[simp] theorem valid_piece (r : EncReader) (piece : Option Bytes) :
    Valid { r with piece := piece } ↔ r.Valid := by
  rfl

theorem rest_some_piece {r : EncReader} (hbuf : r.buf.isSome) (piece : Bytes) :
    rest { r with piece := some piece } = piece ++ rest { r with piece := none } := by
  obtain ⟨buf, hbuf⟩ := Option.isSome_iff_exists.mp hbuf
  simp [rest, hbuf]

/-- At `io.EOF` the reader has nothing left to give. -/
theorem rest_eq_nil_of_next {r r' : EncReader} (h : r.next = (none, r')) : r.rest = [] := by
  unfold next at h
  split at h
  · rename_i hbuf
    simp [rest, hbuf]
  · simp at h
  · rename_i buf hbuf hpiece
    split at h
    · dsimp only at h
      split at h <;> simp at h
    · rename_i hge
      split at h
      · simp at h
      · rename_i hend
        simp [rest, hbuf, hpiece, List.drop_eq_nil_of_le (Nat.le_of_not_lt hge), Encbuf.spliceHeads,
          List.drop_eq_nil_of_le (Nat.le_of_not_lt hend)]

/-- **The step of the reader.**  A piece `next` returns on a valid reader is the front of what
the reader has still to give; the rest is left to the reader after it, which is valid and
still has its buffer. -/
theorem Valid.next {r r' : EncReader} {p : Bytes} (hr : r.Valid) (h : r.next = (some p, r')) :
    r.rest = p ++ rest { r' with piece := none } ∧ r'.Valid ∧ r'.buf.isSome := by
  unfold EncReader.next at h
  split at h
  · simp at h
  · rename_i buf piece hbuf hpiece
    obtain ⟨rfl, rfl⟩ := Prod.ext_iff.mp h |>.imp Option.some.inj id
    exact ⟨by simp [rest, hbuf, hpiece], hr, by simp [hbuf]⟩
  · rename_i buf hbuf hpiece
    have hord := hr buf hbuf
    split at h
    · rename_i hlt
      rw [List.drop_eq_getElem_cons hlt, offsetsOrdered_cons] at hord
      dsimp only at h
      split at h
      · -- the string data before the header; the reader moves to the header's offset
        rename_i hpos
        obtain ⟨rfl, rfl⟩ := Prod.ext_iff.mp h |>.imp Option.some.inj id
        have hat : r.strpos + (buf.lheads[r.lhpos].offset - r.strpos) = buf.lheads[r.lhpos].offset := by
          omega
        refine ⟨?_, ?_, by simp [hbuf]⟩
        · simp only [rest, hbuf, hpiece, Option.getD_none, List.nil_append]
          rw [hat, List.drop_eq_getElem_cons hlt, Encbuf.spliceHeads, Encbuf.spliceHeads, Nat.sub_self,
            List.take_zero, List.nil_append, List.append_assoc]
        · intro buf' hbuf'
          rw [hbuf, Option.some.injEq] at hbuf'
          subst hbuf'
          show OffsetsOrdered _ (r.strpos + _) _
          rw [hat, List.drop_eq_getElem_cons hlt, offsetsOrdered_cons]
          exact ⟨le_refl _, hord.2⟩
      · -- the header: the reader is at its offset already
        rename_i hpos
        obtain ⟨rfl, rfl⟩ := Prod.ext_iff.mp h |>.imp Option.some.inj id
        have hat : r.strpos = buf.lheads[r.lhpos].offset := by omega
        refine ⟨?_, ?_, by simp [hbuf]⟩
        · simp only [rest, hbuf, hpiece, Option.getD_none, List.nil_append]
          rw [List.drop_eq_getElem_cons hlt, Encbuf.spliceHeads, ← hat, Nat.sub_self, List.take_zero,
            List.nil_append]
        · intro buf' hbuf'
          rw [hbuf, Option.some.injEq] at hbuf'
          subst hbuf'
          show OffsetsOrdered _ r.strpos _
          rw [hat]
          exact hord.2
    · rename_i hge
      have hdrop : buf.lheads.drop r.lhpos = [] := List.drop_eq_nil_of_le (by omega)
      split at h
      · -- the string data after the last header
        obtain ⟨rfl, rfl⟩ := Prod.ext_iff.mp h |>.imp Option.some.inj id
        refine ⟨?_, ?_, by simp [hbuf]⟩
        · simp [rest, hbuf, hpiece, hdrop, Encbuf.spliceHeads]
        · intro buf' hbuf'
          rw [hbuf, Option.some.injEq] at hbuf'
          subst hbuf'
          simp [hdrop]
      · simp at h

/-- The loop of `Read` into a buffer of `len` bytes of which the bytes `n` are filled:
take the next piece; if it does not fit, keep its rest for the next call. -/
def readLoop (len : Nat) (n : Bytes) (r : EncReader) : Bytes × Bool × EncReader :=
  match _hnext : r.next with
  | (none, r') =>
      -- `io.EOF`; the buffer goes back to the pool
      (n, true, { r' with piece := none, buf := none })
  | (some piece, r') =>
      let nn := min (len - n.length) piece.length
      if nn < piece.length then
        -- piece didn't fit, see you next time
        (n ++ piece.take nn, false, { r' with piece := some (piece.drop nn) })
      else readLoop len (n ++ piece) { r' with piece := none }
termination_by r.pending
decreasing_by exact pending_next_lt _hnext

/-- What a call of the read loop into a buffer of `len` bytes, the bytes `n` filled, did: it
added the front `m` of what the reader had to give and left the rest to the reader after
it, without passing the end of the buffer; it returned `io.EOF` only with nothing left, and
otherwise with the buffer full and something left. -/
structure ReadOk (len : Nat) (n : Bytes) (r : EncReader) (res : Bytes × Bool × EncReader) :
    Prop where
  front : ∃ m, res.1 = n ++ m ∧ r.rest = m ++ res.2.2.rest
  valid : res.2.2.Valid
  length_le : res.1.length ≤ len
  eof : res.2.1 = true → res.2.2.rest = []
  full : res.2.1 = false → res.1.length = len ∧ res.2.2.rest ≠ []

/-- **The spec of the read loop**, by induction along its iterations: each takes one piece
from the front of what the reader has to give (`Valid.next`). -/
theorem readLoop_spec (len : Nat) (n : Bytes) (r : EncReader) :
    r.Valid → n.length ≤ len → ReadOk len n r (readLoop len n r) := by
  fun_induction readLoop len n r with
  | case1 n r r' hnext =>
      -- `io.EOF`: the reader had nothing left
      intro _ hn
      have hnil := rest_eq_nil_of_next hnext
      exact ⟨⟨[], by simp, by rw [hnil]; rfl⟩, fun buf hbuf => by simp at hbuf, hn,
        fun _ => rfl, fun h => by simp at h⟩
  | case2 n r piece r' hnext nn hlt =>
      -- the piece did not fit: the buffer is full and the piece's rest is kept
      intro hr hn
      obtain ⟨hrest, hvalid, hbuf⟩ := hr.next hnext
      have hnn : nn = len - n.length := by omega
      have hkept : piece.drop nn ≠ [] := by simp [List.drop_eq_nil_iff]; omega
      refine ⟨⟨piece.take nn, rfl, ?_⟩, hvalid, ?_, fun h => by simp at h, fun _ => ⟨?_, ?_⟩⟩
      · rw [hrest, rest_some_piece hbuf, ← List.append_assoc, List.take_append_drop]
      · simp only [List.length_append, List.length_take]
        omega
      · simp only [List.length_append, List.length_take]
        omega
      · rw [rest_some_piece hbuf]
        exact fun h => hkept (List.append_eq_nil_iff.mp h).1
  | case3 n r piece r' hnext nn hge ih =>
      -- the piece fit: the loop goes on with the next one
      intro hr hn
      obtain ⟨hrest, hvalid, -⟩ := hr.next hnext
      have hfit : (n ++ piece).length ≤ len := by
        simp only [List.length_append]
        omega
      obtain ⟨⟨m, hout, hm⟩, hv, hle, heof, hfull⟩ := ih hvalid hfit
      exact ⟨⟨piece ++ m, by rw [hout, List.append_assoc], by rw [hrest, hm, List.append_assoc]⟩,
        hv, hle, heof, hfull⟩

/-- `Read` into a buffer of `len` bytes: the bytes copied, whether the call returned
`io.EOF`, and the reader after it. -/
def Read (r : EncReader) (len : Nat) : Bytes × Bool × EncReader :=
  readLoop len [] r

theorem Read_spec (len : Nat) {r : EncReader} (hr : r.Valid) : ReadOk len [] r (r.Read len) :=
  readLoop_spec len [] r hr (Nat.zero_le len)

/-- A buffer with room for all the reader has left gets all of it and `io.EOF`. -/
theorem Read_eof (len : Nat) {r : EncReader} (hr : r.Valid) (hlen : r.rest.length ≤ len) :
    (r.Read len).2.1 = true := by
  obtain ⟨⟨m, hout, hm⟩, -, -, -, hfull⟩ := Read_spec len hr
  cases heof : (r.Read len).2.1 with
  | true => rfl
  | false =>
      obtain ⟨hlen', hleft⟩ := hfull heof
      have hpos : 0 < (r.Read len).2.2.rest.length := List.length_pos_iff.mpr hleft
      have hsplit := congrArg List.length hm
      rw [hout, List.nil_append] at hlen'
      simp only [List.length_append] at hsplit
      omega

end EncReader

/-- `EncodeToReader`: encode into a fresh buffer and return its size and a reader on it. -/
def EncodeToReader (v : Item) : Nat × EncReader :=
  let eb := writeInterface v Encbuf.empty
  (eb.size, ⟨some eb, 0, 0, none⟩)

/-- Successive `Read` calls with buffers of the given lengths until one returns `io.EOF`:
the bytes they returned and whether `io.EOF` came before the lengths ran out. -/
def readUntilEOF : List Nat → EncReader → Bytes × Bool
  | [], _ => ([], false)
  | len :: lens, r =>
      match r.Read len with
      | (out, true, _) => (out, true)
      | (out, false, r) => (out ++ (readUntilEOF lens r).1, (readUntilEOF lens r).2)

/-- Reads that end in `io.EOF` return all the reader had to give. -/
theorem readUntilEOF_eq_rest : ∀ (lens : List Nat) (r : EncReader), r.Valid →
    (readUntilEOF lens r).2 = true → (readUntilEOF lens r).1 = r.rest
  | [], _, _, h => by simp [readUntilEOF] at h
  | len :: lens, r, hr, h => by
      have hok := EncReader.Read_spec len hr
      simp only [readUntilEOF] at h ⊢
      revert hok h
      rcases r.Read len with ⟨out, _ | _, r'⟩ <;> intro h hok <;> simp only at h ⊢
      · -- no `io.EOF` yet: the later calls return what is left after this one
        obtain ⟨⟨m, hout, hm⟩, hv, -, -, -⟩ := hok
        rw [readUntilEOF_eq_rest lens r' hv h]
        simp only at hout hm
        rw [hout, hm, List.nil_append]
      · obtain ⟨⟨m, hout, hm⟩, -, -, heof, -⟩ := hok
        simp only at hout hm
        rw [hout, hm, heof rfl, List.nil_append, List.append_nil]

/-- Buffers with room for all the reader has left, in any number of calls, reach `io.EOF`. -/
theorem readUntilEOF_eof : ∀ (lens : List Nat) (r : EncReader), r.Valid → lens ≠ [] →
    r.rest.length ≤ lens.sum → (readUntilEOF lens r).2 = true
  | [], _, _, h, _ => absurd rfl h
  | len :: lens, r, hr, _, hsum => by
      have hok := EncReader.Read_spec len hr
      simp only [readUntilEOF]
      revert hok
      rcases r.Read len with ⟨out, _ | _, r'⟩ <;> intro hok
      · -- a full buffer: the later calls have room for what is left
        obtain ⟨⟨m, hout, hm⟩, hv, -, -, hfull⟩ := hok
        obtain ⟨hlen, hleft⟩ := hfull rfl
        simp only at hout hm hlen hleft
        have hpos : 0 < r'.rest.length := List.length_pos_iff.mpr hleft
        have hsplit := congrArg List.length hm
        rw [hout, List.nil_append] at hlen
        simp only [List.length_append, List.sum_cons] at hsplit hsum
        have hlens : lens ≠ [] := by
          rintro rfl
          simp only [List.sum_nil] at hsum
          omega
        exact readUntilEOF_eof lens r' hv hlens (by omega)
      · rfl

theorem rest_EncodeToReader (v : Item) : (EncodeToReader v).2.rest = EncodeToBytes v := by
  simp [EncodeToReader, EncReader.rest, EncodeToBytes, Encbuf.toBytes]

theorem valid_EncodeToReader (v : Item) (hv : v.Fits) : (EncodeToReader v).2.Valid := by
  intro buf hbuf
  simp only [EncodeToReader, Option.some.injEq] at hbuf
  subst hbuf
  simpa [EncodeToReader] using offsetsOrdered_writeInterface v hv

/-- The size `EncodeToReader` returns is the length of the output. -/
theorem size_EncodeToReader (v : Item) (hv : v.Fits) :
    (EncodeToReader v).1 = (EncodeToBytes v).length := by
  rw [EncodeToBytes_eq_encode v hv, length_encode]
  simp [EncodeToReader, writeInterface_eq v _ hv, Encbuf.size, Encbuf.empty]

/-- A writer that takes every write gets the bytes of `EncodeToBytes` from `Encode`. -/
theorem Encode_append {σ ε : Type} (write : σ → Bytes → Except ε σ) (contents : σ → Bytes)
    (hw : ∀ s p, ∃ s', write s p = .ok s' ∧ contents s' = contents s ++ p) (v : Item) (hv : v.Fits)
    (out : σ) : ∃ out', Encode write out v = .ok out' ∧ contents out' = contents out ++ EncodeToBytes v :=
  toWriterFrom_append write contents hw _ 0 _ out (offsetsOrdered_writeInterface v hv)

/-- **The output paths agree.**  For every item whose lengths fit the length field: a writer
that takes every write gets from `Encode` the bytes of `EncodeToBytes`; successive `Read`
calls on the reader of `EncodeToReader`, with buffers of any lengths, return those bytes once
they reach `io.EOF`, and they reach it as soon as the buffers have room for the size
`EncodeToReader` returns, which is the length of those bytes. -/
theorem output_paths_agree (v : Item) (hv : v.Fits) :
    (∀ (σ ε : Type) (write : σ → Bytes → Except ε σ) (contents : σ → Bytes),
        (∀ s p, ∃ s', write s p = .ok s' ∧ contents s' = contents s ++ p) →
        ∀ out, ∃ out', Encode write out v = .ok out' ∧
          contents out' = contents out ++ EncodeToBytes v) ∧
      (∀ lens, (readUntilEOF lens (EncodeToReader v).2).2 = true →
        (readUntilEOF lens (EncodeToReader v).2).1 = EncodeToBytes v) ∧
      (∀ lens, lens ≠ [] → (EncodeToReader v).1 ≤ lens.sum →
        (readUntilEOF lens (EncodeToReader v).2).2 = true) ∧
      (EncodeToReader v).1 = (EncodeToBytes v).length := by
  have hr := valid_EncodeToReader v hv
  have hsize := size_EncodeToReader v hv
  refine ⟨fun σ ε write contents hw out => Encode_append write contents hw v hv out, ?_, ?_, hsize⟩
  · intro lens heof
    rw [readUntilEOF_eq_rest lens _ hr heof, rest_EncodeToReader]
  · intro lens hne hsum
    refine readUntilEOF_eof lens _ hr hne ?_
    rw [rest_EncodeToReader, ← hsize]
    exact hsum

theorem output_paths_agree_list :
    (Item.list [.bytes [1, 2, 3], .list []]).Fits ∧
      ((∀ (σ ε : Type) (write : σ → Bytes → Except ε σ) (contents : σ → Bytes),
        (∀ s p, ∃ s', write s p = .ok s' ∧ contents s' = contents s ++ p) →
        ∀ out, ∃ out', Encode write out (.list [.bytes [1, 2, 3], .list []]) = .ok out' ∧
          contents out' = contents out ++ EncodeToBytes (.list [.bytes [1, 2, 3], .list []])) ∧
      (∀ lens, (readUntilEOF lens (EncodeToReader (.list [.bytes [1, 2, 3], .list []])).2).2 = true →
        (readUntilEOF lens (EncodeToReader (.list [.bytes [1, 2, 3], .list []])).2).1 =
          EncodeToBytes (.list [.bytes [1, 2, 3], .list []])) ∧
      (∀ lens, lens ≠ [] → (EncodeToReader (.list [.bytes [1, 2, 3], .list []])).1 ≤ lens.sum →
        (readUntilEOF lens (EncodeToReader (.list [.bytes [1, 2, 3], .list []])).2).2 = true) ∧
      (EncodeToReader (.list [.bytes [1, 2, 3], .list []])).1 =
        (EncodeToBytes (.list [.bytes [1, 2, 3], .list []])).length) := by
  have hv : (Item.list [.bytes [1, 2, 3], .list []]).Fits := by simp [encodeBytes, lengthPrefix]
  exact ⟨hv, output_paths_agree _ hv⟩

end Rlp
end Ethcore
