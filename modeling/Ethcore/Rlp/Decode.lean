import Ethcore.Rlp.Encode
import Ethcore.Rlp.Stream

/-!
# Decoding into `interface{}`: `decodeInterface` and `DecodeBytes`

The reflective decoder of `decode.go` at the one target type that covers every RLP value:
`interface{}`, which receives `[]byte` for a string and `[]interface{}` for a list.  Its
decoder is `decodeInterface`, which for a list runs `decodeListSlice` and the element loop
`decodeSliceElems` with itself as the element decoder.

The recursion of the source (a decoder calling itself through the loop) is made
structural by an explicit `fuel`: `none` is running out of it.  `DecodeBytes` gives
`len(b) + 1`, and `DecodeBytes_isSome` proves that this is never exhausted.

Results:

* `decodeInterface_complete`: from the Yellow Paper encoding of an item, with room for it,
  `decodeInterface` returns the item and moves exactly past its encoding.
* `decodeInterface_sound`: whatever `decodeInterface` returns, the bytes it moved past are
  the Yellow Paper encoding of the result, so the decoder accepts only canonical input.
* the two top-level statements about `DecodeBytes` and the writer of `Encode.lean`.
-/

namespace Ethcore
namespace Rlp

/-- `wrapStreamError`: the stream errors a decoder reports together with its target type. -/
def wrapStreamError (err : Error) (typ : String) : Error :=
  match err with
  | .ErrCanonInt => .decodeError "non-canonical integer (leading zero bytes)" typ []
  | .ErrCanonSize => .decodeError "non-canonical size information" typ []
  | .ErrExpectedList => .decodeError "expected input list" typ []
  | .ErrExpectedString => .decodeError "expected input string or byte" typ []
  | .errUintOverflow => .decodeError "input string too long" typ []
  | .errNotAtEOL => .decodeError "input list has too many elements" typ []
  | err => err

/-- `addErrorContext`: a `decodeError` records one more step of the path into the value. -/
def addErrorContext (err : Error) (ctx : String) : Error :=
  match err with
  | .decodeError msg typ c => .decodeError msg typ (c ++ [ctx])
  | err => err

/-- A decoder of values of `α`: the result and the stream after it, or `none` when the
fuel ran out. -/
abbrev Decoder (α : Type) := Stream → Option (Except Error α × Stream)

/-- `decodeSliceElems`: decode elements until the list ends (`EOL`); an element's error
gains its index `[i]` as context.  The loop runs on `fuel`; `acc` is the slice so far. -/
def decodeSliceElems {α : Type} (elemdec : Decoder α) :
    Nat → Nat → Stream → List α → Option (Except Error (List α) × Stream)
  | 0, _, _, _ => none
  | fuel + 1, i, s, acc =>
      match elemdec s with
      | none => none
      | some (.error .EOL, s) => some (.ok acc, s)
      | some (.error err, s) => some (.error (addErrorContext err ("[" ++ toString i ++ "]")), s)
      | some (.ok x, s) => decodeSliceElems elemdec fuel (i + 1) s (acc ++ [x])

/-- `decodeListSlice`: enter the list, decode its elements, leave it.  An empty list is
left at once. -/
def decodeListSlice {α : Type} (elemdec : Decoder α) (typ : String) (fuel : Nat)
    (s : Stream) : Option (Except Error (List α) × Stream) :=
  match s.List with
  | (.error err, s) => some (.error (wrapStreamError err typ), s)
  | (.ok size, s) =>
      if size = 0 then
        match s.ListEnd with
        | (some err, s) => some (.error err, s)
        | (none, s) => some (.ok [], s)
      else
        match decodeSliceElems elemdec fuel 0 s [] with
        | none => none
        | some (.error err, s) => some (.error err, s)
        | some (.ok xs, s) =>
            match s.ListEnd with
            | (some err, s) => some (.error err, s)
            | (none, s) => some (.ok xs, s)

/-- The Go type `[]interface{}`, as `%v` prints it. -/
def ifsliceType : String := "[]interface \x7b\x7d"

/-- `decodeInterface`: a list becomes the slice of its decoded elements, anything else the
byte string `Bytes` reads.  (The target `interface{}` has no methods, so the source's first
check always passes.) -/
def decodeInterface : Nat → Decoder Item
  | 0, _ => none
  | fuel + 1, s =>
      match s.Kind with
      | (.error err, s) => some (.error err, s)
      | (.ok (.List, _), s) =>
          match decodeListSlice (decodeInterface fuel) ifsliceType fuel s with
          | none => none
          | some (.error err, s) => some (.error err, s)
          | some (.ok xs, s) => some (.ok (.list xs), s)
      | (.ok _, s) =>
          match s.Bytes with
          | (.error err, s) => some (.error err, s)
          | (.ok b, s) => some (.ok (.bytes b), s)

/-- `(*Stream).Decode` into an `interface{}`: an error with a context path also names the
target type. -/
def Stream.Decode (fuel : Nat) (s : Stream) : Option (Except Error Item × Stream) :=
  match decodeInterface fuel s with
  | some (.error (.decodeError msg typ ctx), s) =>
      if ctx.isEmpty then some (.error (.decodeError msg typ ctx), s)
      else some (.error (.decodeError msg typ (ctx ++ ["(interface \x7b\x7d)"])), s)
  | r => r

/-- `DecodeBytes` into an `interface{}`: a stream limited to `len(b)`, one value, and
nothing after it. -/
def DecodeBytes (b : Bytes) : Option (Except Error Item) :=
  match (Stream.NewStream b b.length).Decode (b.length + 1) with
  | none => none
  | some (.error err, _) => some (.error err)
  | some (.ok v, s) => if s.r.length > 0 then some (.error .ErrMoreThanOneValue) else some (.ok v)

theorem addErrorContext_ne_EOL {err : Error} (h : err ≠ .EOL) (ctx : String) :
    addErrorContext err ctx ≠ .EOL := by
  cases err <;> simp_all [addErrorContext]

theorem wrapStreamError_ne_EOL {err : Error} (h : err ≠ .EOL) (typ : String) :
    wrapStreamError err typ ≠ .EOL := by
  cases err <;> simp_all [wrapStreamError]

/-! ### `EOL` reaches a caller only from the end of a list -/

attribute [local simp] decodeSliceElems in
/-- The element loop absorbs `EOL` and never reports it, whatever the element decoder. -/
theorem decodeSliceElems_ne_EOL {α : Type} {elemdec : Decoder α} {fuel i : Nat}
    {s s' : Stream} {acc : List α} {err : Error}
    (h : decodeSliceElems elemdec fuel i s acc = some (.error err, s')) : err ≠ .EOL := by
  induction fuel generalizing i s acc with
  | zero => simp at h
  | succ fuel ih =>
      unfold decodeSliceElems at h
      split at h
      · cases h
      · cases h
      · rename_i e hne _
        cases h
        exact addErrorContext_ne_EOL hne _
      · exact ih h

theorem decodeListSlice_ne_EOL {α : Type} {elemdec : Decoder α} {typ : String} {fuel : Nat}
    {s s' : Stream} {err : Error} (hk : s.kind = some .List) (he : s.kinderr = none)
    (h : decodeListSlice elemdec typ fuel s = some (.error err, s')) : err ≠ .EOL := by
  unfold decodeListSlice at h
  rw [Stream.List_cached hk he] at h
  dsimp only at h
  split_ifs at h
  · split at h
    · cases h
      exact Stream.ListEnd_ne_EOL ‹_›
    · cases h
  · split at h
    · cases h
    · cases h
      exact decodeSliceElems_ne_EOL ‹_›
    · split at h
      · cases h
        exact Stream.ListEnd_ne_EOL ‹_›
      · cases h

attribute [local simp] decodeInterface in
/-- `decodeInterface` reports `EOL` only from its first `Kind`, at the end of the innermost
list, having moved nothing. -/
theorem decodeInterface_EOL {fuel : Nat} {s s' : Stream} (hk : s.kind = none)
    (h : decodeInterface fuel s = some (.error .EOL, s')) :
    ∃ tos, s.stack.head? = some tos ∧ tos.pos = tos.size ∧ s' = { s with kinderr := none } := by
  cases fuel with
  | zero => simp at h
  | succ fuel =>
      unfold decodeInterface at h
      rcases hK : s.Kind with ⟨_ | ⟨k, n⟩, s1⟩ <;> rw [hK] at h
      · dsimp only at h
        cases h
        exact Stream.Kind_EOL_iff hk hK
      · obtain ⟨-, -, -, hk1, he1, -⟩ := Stream.Kind_accepts hk hK
        exfalso
        cases k with
        | List =>
            dsimp only at h
            split at h
            · cases h
            · cases h
              exact decodeListSlice_ne_EOL hk1 he1 ‹_› rfl
            · cases h
        | Byte | String =>
            dsimp only at h
            split at h
            · cases h
              exact Stream.Bytes_ne_EOL hk1 he1 ‹_› rfl
            · cases h

/-- At the end of the innermost list `decodeInterface` reports `EOL`. -/
theorem decodeInterface_at_end {fuel : Nat} {s : Stream} {tos : ListPos} (hk : s.kind = none)
    (hs : s.stack.head? = some tos) (hend : tos.pos = tos.size) :
    decodeInterface (fuel + 1) s = some (.error .EOL, { s with kinderr := none }) := by
  simp [decodeInterface, Stream.Kind_EOL hk hs hend]

/-! ### Soundness: what is decoded was canonically encoded -/

section Sound

/-! The soundness of an element decoder, as the element loop uses it: a value decoded from
a rearmed stream was there in its Yellow Paper encoding, and `EOL` moves nothing. -/

variable {elemdec : Decoder Item}
  (hok : ∀ {s t : Stream} {x : Item}, s.kind = none → elemdec s = some (.ok x, t) →
    x.Fits ∧ s.r = x.encode ++ t.r ∧ t.Past s x.encode.length ∧ t.kind = none)
  (heol : ∀ {s t : Stream}, s.kind = none → elemdec s = some (.error .EOL, t) →
    t = { s with kinderr := none })
include hok heol

/-- The element loop: the elements decoded were encoded one after the other. -/
theorem decodeSliceElems_sound {fuel i : Nat} {s t : Stream} {acc xs : List Item}
    (hk : s.kind = none) (h : decodeSliceElems elemdec fuel i s acc = some (.ok xs, t)) :
    ∃ ys, xs = acc ++ ys ∧ Item.FitsAll ys ∧ s.r = Item.encodeAll ys ++ t.r ∧
      t.Past s (Item.encodeAll ys).length ∧ t.kind = none := by
  induction fuel generalizing i s acc with
  | zero => simp [decodeSliceElems] at h
  | succ fuel ih =>
      unfold decodeSliceElems at h
      split at h
      · cases h
      · -- the list ended: nothing moved
        rename_i s1 hdec
        cases h
        obtain rfl := heol hk hdec
        exact ⟨[], by simp, by simp, by simp,
          (Stream.Past.refl s).cache s.kind s.size s.byteval none, hk⟩
      · cases h
      · -- one more element, then the rest of the loop
        rename_i x s1 hdec
        obtain ⟨hx, hr1, hp1, hk1⟩ := hok hk hdec
        obtain ⟨ys, rfl, hys, hr2, hp2, hk2⟩ := ih hk1 h
        refine ⟨x :: ys, by simp, by simp [hx, hys], by rw [hr1, hr2]; simp, ?_, hk2⟩
        have hp := hp2.trans hp1
        simpa using hp

/-- A list slice: the elements' encodings fill the list's declared size exactly. -/
theorem decodeListSlice_sound {typ : String} {fuel : Nat} {s t : Stream} {xs : List Item}
    (hk : s.kind = some .List) (he : s.kinderr = none)
    (h : decodeListSlice elemdec typ fuel s = some (.ok xs, t)) :
    Item.FitsAll xs ∧ s.r = Item.encodeAll xs ++ t.r ∧ (Item.encodeAll xs).length = s.size ∧
      t.Past s (Item.encodeAll xs).length ∧ t.kind = none := by
  unfold decodeListSlice at h
  rw [Stream.List_cached hk he] at h
  dsimp only at h
  split_ifs at h with hsize
  · -- an empty list is left at once
    split at h
    · cases h
    · rename_i t1 hend
      cases h
      rw [Stream.ListEnd_past (Stream.Past.refl _), if_pos hsize.symm] at hend
      cases hend
      exact ⟨by simp, by simp, hsize.symm, (Stream.Past.refl _).listEnd, rfl⟩
  · split at h
    · cases h
    · cases h
    · rename_i ys s3 hloop
      obtain ⟨zs, hzs, hfit, hr3, hp3, -⟩ := decodeSliceElems_sound hok heol rfl hloop
      simp only [List.nil_append] at hzs
      subst hzs
      split at h
      · cases h
      · rename_i t1 hend
        cases h
        rw [Stream.ListEnd_past hp3] at hend
        split_ifs at hend with hm
        · cases hend
          exact ⟨hfit, hr3, hm, hp3.listEnd, rfl⟩
        · cases hend

end Sound

/-- **Soundness of `decodeInterface`.**  From a rearmed stream, a decoded item fits, the
stream held exactly its Yellow Paper encoding, and moved past it. -/
theorem decodeInterface_sound {fuel : Nat} :
    ∀ {s t : Stream} {v : Item}, s.kind = none → decodeInterface fuel s = some (.ok v, t) →
      v.Fits ∧ s.r = v.encode ++ t.r ∧ t.Past s v.encode.length ∧ t.kind = none := by
  induction fuel with
  | zero => intro s t v _ h; simp [decodeInterface] at h
  | succ fuel ih =>
      intro s t v hk h
      unfold decodeInterface at h
      rcases hK : s.Kind with ⟨_ | ⟨k, n⟩, s1⟩ <;> rw [hK] at h
      · dsimp only at h
        cases h
      · obtain ⟨hdr, hr, hp, hk1, he1, hn1, hcases⟩ := Stream.Kind_accepts hk hK
        cases k with
        | List =>
            obtain ⟨hn, rfl⟩ : n < 2 ^ 64 ∧ hdr = lengthPrefix 0xC0 n := by
              rcases hcases with ⟨h, -⟩ | ⟨h, -⟩ | ⟨-, h⟩
              · cases h
              · cases h
              · exact h
            dsimp only at h
            split at h
            · cases h
            · cases h
            · rename_i xs s3 hlist
              cases h
              have heol : ∀ {s t : Stream}, s.kind = none →
                  decodeInterface fuel s = some (.error .EOL, t) → t = { s with kinderr := none } :=
                fun hk h => (decodeInterface_EOL hk h).choose_spec.2.2
              obtain ⟨hfit, hr3, hlen, hp3, hk3⟩ := decodeListSlice_sound ih heol hk1 he1 hlist
              rw [hn1] at hlen
              refine ⟨(fits_list xs).mpr ⟨by rw [hlen]; exact hn, hfit⟩, ?_, ?_, hk3⟩
              · rw [hr, hr3, encode_list, hlen, List.append_assoc]
              · have := hp3.trans hp
                simpa [hlen] using this
        | Byte =>
            obtain ⟨c, hc, rfl, hb⟩ : ∃ c, c < 0x80 ∧ hdr = [c] ∧ s1.byteval = c := by
              rcases hcases with ⟨-, h⟩ | ⟨h, -⟩ | ⟨h, -⟩
              · exact h
              · cases h
              · cases h
            dsimp only at h
            split at h
            · cases h
            · rename_i b s3 hbytes
              cases h
              rcases Stream.Bytes_ok hk1 he1 hbytes with ⟨-, rfl, rfl⟩ | ⟨h, -⟩
              · have henc : (Item.bytes [s1.byteval]).encode = [c] := by
                  rw [hb]
                  simp [encodeBytes, hc]
                refine ⟨by simp, by rw [henc, hr], ?_, rfl⟩
                rw [henc]
                exact ⟨hp.r, hp.remaining, hp.limited, hp.stack⟩
              · cases h
        | String =>
            obtain ⟨hn, rfl⟩ : n < 2 ^ 64 ∧ hdr = lengthPrefix 0x80 n := by
              rcases hcases with ⟨h, -⟩ | ⟨-, h⟩ | ⟨h, -⟩
              · cases h
              · exact h
              · cases h
            dsimp only at h
            split at h
            · cases h
            · rename_i b s3 hbytes
              cases h
              rcases Stream.Bytes_ok hk1 he1 hbytes with ⟨h, -⟩ | ⟨-, hlen, hr3, rfl, hcanon⟩
              · cases h
              · rw [hn1] at hlen
                have henc : encodeBytes b = lengthPrefix 0x80 b.length ++ b := by
                  rcases encodeBytes_cases b with ⟨c, rfl, hc, -⟩ | ⟨-, he⟩
                  · exact absurd ⟨rfl, hc⟩ hcanon
                  · exact he
                refine ⟨(fits_bytes b).mpr (by rw [hlen]; exact hn), ?_, ?_, rfl⟩
                · rw [hr, hr3, encode_bytes, henc, hlen, List.append_assoc]
                · have := (Stream.past_consume s1 s1.size).trans hp
                  simpa [henc, hlen, hn1] using this

/-! ### Completeness: every encoding is decoded back -/

section Complete

/-! The element decoder of the loop reports `EOL` at the end of the list. -/

variable {elemdec : Decoder Item}
  (heol : ∀ {s : Stream} {tos : ListPos}, s.kind = none → s.stack.head? = some tos →
    tos.pos = tos.size → elemdec s = some (.error .EOL, { s with kinderr := none }))
include heol

/-- The element loop over a list whose payload is the encodings of `items`, filling the
innermost list exactly: every item is decoded, then `EOL` ends the loop. -/
theorem decodeSliceElems_complete (items : List Item)
    (hitems : ∀ x ∈ items, ∀ {s : Stream} {tail : Bytes}, s.kind = none →
      s.r = x.encode ++ tail → s.Room x.encode.length →
      ∃ t, elemdec s = some (.ok x, t) ∧ t.Past s x.encode.length ∧ t.kind = none)
    {fuel i : Nat} {s : Stream} {acc : List Item} {tail : Bytes} {tos : ListPos}
    (hfuel : items.length < fuel) (hk : s.kind = none) (hr : s.r = Item.encodeAll items ++ tail)
    (hs : s.stack.head? = some tos) (hfill : tos.pos + (Item.encodeAll items).length = tos.size)
    (hlim : s.limited = true → (Item.encodeAll items).length ≤ s.remaining) :
    ∃ t, decodeSliceElems elemdec fuel i s acc = some (.ok (acc ++ items), t) ∧
      t.Past s (Item.encodeAll items).length ∧ t.kind = none := by
  obtain ⟨fuel, rfl⟩ : ∃ f, fuel = f + 1 := ⟨fuel - 1, by omega⟩
  induction items generalizing fuel i s acc tos with
  | nil =>
      refine ⟨_, ?_, (Stream.Past.refl s).cache s.kind s.size s.byteval none, hk⟩
      simp [decodeSliceElems, heol hk hs (by simpa using hfill)]
  | cons x xs ih =>
      simp only [encodeAll_cons, List.length_append] at hfill hlim
      have hroom : s.Room x.encode.length := by
        refine ⟨fun hl => by have := hlim hl; omega, fun tos' h' => ?_⟩
        rw [hs] at h'
        cases h'
        omega
      obtain ⟨t1, hdec, hp1, hk1⟩ :=
        hitems x (by simp) hk (by rw [hr, encodeAll_cons, List.append_assoc]) hroom
      have hr1 : t1.r = Item.encodeAll xs ++ tail := by
        rw [hp1.r, hr]
        simp
      have hlim1 : t1.limited = true → (Item.encodeAll xs).length ≤ t1.remaining := by
        intro hl
        rw [hp1.limited] at hl
        rw [hp1.remaining_sub hl]
        have := hlim hl
        omega
      obtain ⟨fuel', rfl⟩ : ∃ f, fuel = f + 1 := ⟨fuel - 1, by simp at hfuel; omega⟩
      have hrest : ∃ t, decodeSliceElems elemdec (fuel' + 1) (i + 1) t1 (acc ++ [x]) =
          some (.ok (acc ++ [x] ++ xs), t) ∧ t.Past t1 (Item.encodeAll xs).length ∧
          t.kind = none :=
        ih (fun y hy => hitems y (List.mem_cons_of_mem _ hy)) hk1 hr1 (hp1.head hs)
          (by dsimp only; omega) hlim1 fuel' (by simp at hfuel; omega)
      obtain ⟨t, hloop, hp2, hk2⟩ := hrest
      refine ⟨t, ?_, ?_, hk2⟩
      · rw [decodeSliceElems, hdec]
        dsimp only
        rw [hloop]
        simp
      · have := hp2.trans hp1
        simpa using this

end Complete

/-- **Completeness of `decodeInterface`.**  From a rearmed stream holding the Yellow Paper
encoding of a fitting item, with room for it and fuel beyond its length, `decodeInterface`
returns the item and moves exactly past its encoding. -/
theorem decodeInterface_complete {fuel : Nat} :
    ∀ {s : Stream} {v : Item} {tail : Bytes}, v.Fits → v.encode.length < fuel → s.kind = none →
      s.r = v.encode ++ tail → s.Room v.encode.length →
      ∃ t, decodeInterface fuel s = some (.ok v, t) ∧ t.Past s v.encode.length ∧ t.kind = none := by
  induction fuel with
  | zero => intro _ _ _ _ h; omega
  | succ fuel ih =>
      intro s v tail hv hfuel hk hr hroom
      cases v with
      | bytes b =>
          rcases encodeBytes_cases b with ⟨c, rfl, hc, he⟩ | ⟨hcanon, he⟩
          · -- a single byte below `0x80` is its own encoding
            rw [encode_bytes, he] at hr hroom ⊢
            obtain ⟨s1, hK, hp, hk1, he1, hb⟩ := Stream.Kind_single hk hc hr hroom
            refine ⟨{ s1 with kind := none }, ?_, ⟨hp.r, hp.remaining, hp.limited, hp.stack⟩, rfl⟩
            simp [decodeInterface, hK, Stream.Bytes_byte hk1 he1, hb]
          · rw [encode_bytes, he] at hr hroom ⊢
            have hn : b.length < 2 ^ 64 := (fits_bytes b).mp hv
            have hroom' : s.Room ((lengthPrefix 0x80 b.length).length + b.length) := by
              simpa using hroom
            obtain ⟨s1, hK, hp, hk1, he1, hn1⟩ :=
              Stream.Kind_lengthPrefix (.inl ⟨rfl, rfl⟩) hn hk (by rw [hr, List.append_assoc]) hroom'
            have hr1 : s1.r = b ++ tail := by
              rw [hp.r, hr]
              simp
            have hroom1 : s1.Room s1.size := by
              rw [hn1]
              exact hroom'.past hp
            have hlen1 : s1.size ≤ s1.r.length := by
              rw [hn1, hr1]
              simp
            have hcanon1 : ¬(s1.size = 1 ∧ s1.r.headD 0 < 128) := by
              rw [hn1, hr1]
              rintro ⟨h1, h2⟩
              cases b with
              | nil => simp at h1
              | cons c rest => exact hcanon ⟨h1, by simpa using h2⟩
            refine ⟨s1.consume s1.size, ?_, ?_, rfl⟩
            · simp [decodeInterface, hK, Stream.Bytes_string hk1 he1 hroom1 hlen1 hcanon1, hr1, hn1]
            · have := (Stream.past_consume s1 s1.size).trans hp
              simpa [hn1] using this
      | list items =>
          rw [encode_list] at hr hroom hfuel ⊢
          have hfits := (fits_list items).mp hv
          have hroom' : s.Room ((lengthPrefix 0xC0 (Item.encodeAll items).length).length +
              (Item.encodeAll items).length) := by
            simpa using hroom
          obtain ⟨s1, hK, hp, hk1, he1, hn1⟩ :=
            Stream.Kind_lengthPrefix (.inr ⟨rfl, rfl⟩) hfits.1 hk (by rw [hr, List.append_assoc]) hroom'
          have hr1 : s1.r = Item.encodeAll items ++ tail := by
            rw [hp.r, hr]
            simp
          have hhdr := lengthPrefix_pos 0xC0 (Item.encodeAll items).length
          unfold decodeInterface
          rw [hK]
          dsimp only
          unfold decodeListSlice
          rw [Stream.List_cached hk1 he1]
          dsimp only
          by_cases hP : (Item.encodeAll items).length = 0
          · -- the empty list
            obtain rfl : items = [] :=
              (encodeAll_eq_nil_iff items).mp (List.length_eq_zero_iff.mp hP)
            rw [if_pos (by rw [hn1]; rfl), Stream.ListEnd_past (Stream.Past.refl _),
              if_pos (by rw [hn1]; rfl)]
            refine ⟨_, rfl, ?_, rfl⟩
            have hp0 := Stream.Past.refl
              ({ s1 with stack := ⟨0, s1.size⟩ :: s1.stack, kind := none, size := 0 } : Stream)
            have := hp0.listEnd.trans hp
            simpa using this
          · rw [if_neg (by rw [hn1]; exact hP)]
            -- a list with elements has a header and a payload, so the fuel is at least two
            obtain ⟨fuel, rfl⟩ : ∃ f, fuel = f + 1 := ⟨fuel - 1, by simp at hfuel; omega⟩
            have hitems : ∀ x ∈ items, ∀ {s : Stream} {tail : Bytes}, s.kind = none →
                s.r = x.encode ++ tail → s.Room x.encode.length →
                ∃ t, decodeInterface (fuel + 1) s = some (.ok x, t) ∧
                  t.Past s x.encode.length ∧ t.kind = none := by
              intro x hx s tail hk hr hroom
              have := length_encode_le_of_mem hx
              exact ih (fits_of_mem hfits.2 hx) (by simp at hfuel; omega) hk hr hroom
            have hlim : s1.limited = true → (Item.encodeAll items).length ≤ s1.remaining := by
              intro hl
              rw [hp.limited] at hl
              rw [hp.remaining_sub hl]
              have := hroom'.1 hl
              omega
            have hlen := length_le_length_encodeAll items
            obtain ⟨t3, hloop, hp3, -⟩ := @decodeSliceElems_complete _
              (fun hk hs hend => decodeInterface_at_end hk hs hend) items hitems (fuel + 1) 0
              ({ s1 with stack := ⟨0, s1.size⟩ :: s1.stack, kind := none, size := 0 }) [] tail
              ⟨0, s1.size⟩ (by simp at hfuel; omega) rfl hr1 rfl (by simp [hn1]) hlim
            rw [hloop]
            dsimp only
            rw [Stream.ListEnd_past hp3, if_pos hn1.symm, List.nil_append]
            refine ⟨_, rfl, ?_, rfl⟩
            have := hp3.listEnd.trans hp
            simpa using this

/-! ### The fuel `len(b) + 1` is never exhausted -/

/-- The element loop runs out of fuel only if an element decoder does or the fuel is below
the input left: every element decoded takes at least one byte. -/
theorem decodeSliceElems_ne_none {elemdec : Decoder Item} {bound : Nat}
    (hsome : ∀ {s : Stream}, s.kind = none → s.r.length < bound → elemdec s ≠ none)
    (hprog : ∀ {s t : Stream} {x : Item}, s.kind = none → elemdec s = some (.ok x, t) →
      t.r.length < s.r.length ∧ t.kind = none)
    {fuel i : Nat} {s : Stream} {acc : List Item} (hk : s.kind = none)
    (hfuel : s.r.length < fuel) (hbound : s.r.length < bound) :
    decodeSliceElems elemdec fuel i s acc ≠ none := by
  induction fuel generalizing i s acc with
  | zero => omega
  | succ fuel ih =>
      unfold decodeSliceElems
      split
      · rename_i hnone
        exact absurd hnone (hsome hk hbound)
      · simp
      · simp
      · rename_i x t hdec
        obtain ⟨hlt, hkt⟩ := hprog hk hdec
        exact ih hkt (by omega) (by omega)

/-- A list slice runs out of fuel only where its element loop does. -/
theorem decodeListSlice_ne_none {α : Type} {elemdec : Decoder α} {typ : String} {fuel : Nat}
    {s : Stream}
    (h : ∀ size s2, s.List = (.ok size, s2) → size ≠ 0 → decodeSliceElems elemdec fuel 0 s2 [] ≠ none) :
    decodeListSlice elemdec typ fuel s ≠ none := by
  unfold decodeListSlice
  rcases hl : s.List with ⟨_ | size, s2⟩
  · simp
  · dsimp only
    split_ifs with h0
    · split <;> simp
    · rcases hd : decodeSliceElems elemdec fuel 0 s2 [] with _ | ⟨_ | xs, t⟩
      · exact absurd hd (h size s2 hl h0)
      · simp
      · rcases hle : t.ListEnd with ⟨_ | e, t'⟩ <;> simp [hle]

/-- `decodeInterface` never runs out of fuel above the length of the input left. -/
theorem decodeInterface_ne_none (fuel : Nat) :
    ∀ (s : Stream), s.kind = none → s.r.length < fuel → decodeInterface fuel s ≠ none := by
  induction fuel with
  | zero => intro s _ h; omega
  | succ fuel ih =>
      intro s hk hfuel
      unfold decodeInterface
      rcases hK : s.Kind with ⟨_ | ⟨k, n⟩, s1⟩
      · simp
      · obtain ⟨hdr, hr, -, hk1, he1, -, hcases⟩ := Stream.Kind_accepts hk hK
        -- the header takes at least one byte
        have hhdr : 0 < hdr.length := by
          rcases hcases with ⟨-, c, -, rfl, -⟩ | ⟨-, -, rfl⟩ | ⟨-, -, rfl⟩
          · simp
          · exact lengthPrefix_pos _ _
          · exact lengthPrefix_pos _ _
        have hlen1 : s1.r.length < fuel := by
          rw [hr, List.length_append] at hfuel
          omega
        cases k with
        | List =>
            -- every element decoded takes its encoding, which is never empty
            have hprog : ∀ {s t : Stream} {x : Item}, s.kind = none →
                decodeInterface fuel s = some (.ok x, t) → t.r.length < s.r.length ∧ t.kind = none := by
              intro s t x hk hdec
              obtain ⟨-, hr', -, hk'⟩ := decodeInterface_sound hk hdec
              have := List.length_pos_of_ne_nil (encode_ne_nil x)
              rw [hr', List.length_append]
              exact ⟨by omega, hk'⟩
            have hlist : decodeListSlice (decodeInterface fuel) ifsliceType fuel s1 ≠ none := by
              apply decodeListSlice_ne_none
              intro size s2 hl _
              rw [Stream.List_cached hk1 he1] at hl
              cases hl
              exact decodeSliceElems_ne_none (fun hk h => ih _ hk h) hprog rfl hlen1 hlen1
            dsimp only
            split
            · rename_i hnone
              exact absurd hnone hlist
            · simp
            · simp
        | Byte | String =>
            dsimp only
            split <;> simp

theorem Stream.Decode_of_ok {fuel : Nat} {s t : Stream} {v : Item}
    (h : decodeInterface fuel s = some (.ok v, t)) : s.Decode fuel = some (.ok v, t) := by
  simp [Stream.Decode, h]

theorem Stream.Decode_ok {fuel : Nat} {s t : Stream} {v : Item}
    (h : s.Decode fuel = some (.ok v, t)) : decodeInterface fuel s = some (.ok v, t) := by
  unfold Stream.Decode at h
  rcases hd : decodeInterface fuel s with _ | ⟨e | v', t'⟩ <;> rw [hd] at h
  · cases h
  · cases e <;> dsimp only at h <;> (try split_ifs at h) <;> cases h
  · exact h

theorem Stream.Decode_ne_none {fuel : Nat} {s : Stream} (h : decodeInterface fuel s ≠ none) :
    s.Decode fuel ≠ none := by
  unfold Stream.Decode
  rcases hd : decodeInterface fuel s with _ | ⟨e | v', t'⟩
  · exact absurd hd h
  · cases e <;> dsimp only <;> (try split_ifs) <;> simp
  · simp

/-- The stream `DecodeBytes` reads from has room for the whole input. -/
theorem Stream.NewStream_room (b : Ethcore.Bytes) :
    (Stream.NewStream b b.length).Room b.length :=
  ⟨fun _ => by simp [Stream.NewStream], by simp [Stream.NewStream]⟩

/-- **`DecodeBytes` is total**: its fuel is never exhausted, so it returns a value or an
error on every input. -/
theorem DecodeBytes_ne_none (b : Bytes) : DecodeBytes b ≠ none := by
  have h := Stream.Decode_ne_none
    (decodeInterface_ne_none (b.length + 1) (Stream.NewStream b b.length) rfl
      (by simp [Stream.NewStream]))
  unfold DecodeBytes
  rcases hd : (Stream.NewStream b b.length).Decode (b.length + 1) with _ | ⟨e | v, t⟩
  · exact absurd hd h
  · simp
  · dsimp only
    split_ifs <;> simp

/-! ### The round trip through `EncodeToBytes` and `DecodeBytes` -/

/-- **RLP round trip.**  The `encbuf` writer produces the Yellow Paper encoding of every item
that fits, and decoding those bytes into an `interface{}` gives the item back, with all the
input consumed: `decodeInterface` leaves nothing unread and `DecodeBytes` succeeds. -/
theorem EncodeToBytes_roundtrip (v : Item) (hv : v.Fits) :
    EncodeToBytes v = v.encode ∧
      (∃ t, decodeInterface ((EncodeToBytes v).length + 1)
          (Stream.NewStream (EncodeToBytes v) (EncodeToBytes v).length) = some (.ok v, t) ∧
        t.r = []) ∧
      DecodeBytes (EncodeToBytes v) = some (.ok v) := by
  have henc := EncodeToBytes_eq_encode v hv
  rw [henc]
  have hr : (Stream.NewStream v.encode v.encode.length).r = v.encode ++ [] := by
    simp [Stream.NewStream]
  obtain ⟨t, hd, hp, -⟩ :=
    decodeInterface_complete hv (Nat.lt_succ_self _) rfl hr (Stream.NewStream_room v.encode)
  have htr : t.r = [] := by
    rw [hp.r]
    simp [Stream.NewStream]
  refine ⟨rfl, ⟨t, hd, htr⟩, ?_⟩
  simp [DecodeBytes, Stream.Decode_of_ok hd, htr]

/-- The round trip of a list holding a string and an empty list. -/
theorem EncodeToBytes_roundtrip_pair :
    (Item.list [.bytes [1, 2, 3], .list []]).Fits ∧
      DecodeBytes (EncodeToBytes (.list [.bytes [1, 2, 3], .list []])) =
        some (.ok (.list [.bytes [1, 2, 3], .list []])) := by
  have hv : (Item.list [.bytes [1, 2, 3], .list []]).Fits := by simp [encodeBytes, lengthPrefix]
  exact ⟨hv, (EncodeToBytes_roundtrip _ hv).2.2⟩

/-- **Canonical decoding.**  Whatever `DecodeBytes` decodes into an `interface{}` fits, and
the encoder gives back exactly the bytes decoded: no other encoding of the same item is
accepted. -/
theorem DecodeBytes_canonical {b : Bytes} {v : Item} (h : DecodeBytes b = some (.ok v)) :
    v.Fits ∧ EncodeToBytes v = b := by
  unfold DecodeBytes at h
  rcases hd : (Stream.NewStream b b.length).Decode (b.length + 1) with _ | ⟨e | v', t⟩ <;>
    rw [hd] at h
  · cases h
  · cases h
  · dsimp only at h
    split_ifs at h with hlen
    · cases h
    · cases h
      have htr : t.r = [] := List.eq_nil_of_length_eq_zero (by omega)
      obtain ⟨hfit, hr, -, -⟩ := decodeInterface_sound rfl (Stream.Decode_ok hd)
      refine ⟨hfit, ?_⟩
      rw [EncodeToBytes_eq_encode v hfit]
      simpa [Stream.NewStream, htr] using hr.symm

/-- `0xC1 0x80`, a list holding the empty string, is decoded and is canonical. -/
theorem DecodeBytes_canonical_nested :
    DecodeBytes [0xC1, 0x80] = some (.ok (.list [.bytes []])) ∧
      (Item.list [.bytes []]).Fits ∧ EncodeToBytes (.list [.bytes []]) = [0xC1, 0x80] := by
  have h : DecodeBytes [0xC1, 0x80] = some (.ok (.list [.bytes []])) := by rfl
  exact ⟨h, DecodeBytes_canonical h⟩

end Rlp
end Ethcore
