import Nanom.Proto.Writer

/-!
# Protobuf — the bytes of a message

`contentOf` is what a value is on the wire, without a writer and without a first
pass: every length in it is that of the bytes behind it (`delimit`).

The first pass measures these bytes (`valueSize_measures`), and leaves the lengths
of the nested messages in the order in which the second one takes them
(`sizesOf`). The second pass appends the bytes (`writeValue_adds`).
-/

namespace Nanom.Proto

open List

open Nanom.Tagged (ByteSink Direct EncodeError Stage VectorSink Writer fixedBytes)

variable {T : Ty} {bytes' p : Bytes} {f : Measure → ℕ × Measure} {id : ℕ} {sizes' : List ℕ}

/-! ## The bytes of a value -/

/-- What `writer::varint` writes. -/
def varintBytes (v : ℕ) : Bytes := Wire.uleb128Encode (u64 v)

/-- Bytes, with their length in front. -/
def delimit (p : Bytes) : Bytes := varintBytes p.length ++ p

/-- A scalar. -/
def Scalar.bytes (s : Scalar) (v : s.Value) : Bytes :=
  if s.wire = .varint then varintBytes (s.toVarint v)
  else fixedBytes (s.toBits v) (decide (s.wire = .i64))

/-- The records of a member, each by its wire type and what is behind its
key. -/
def records (T : Ty) (k : Kind) (bytes : T.Value → Bytes) (slot : Slot k T.Value) :
    List (WireType × Bytes) :=
  match T, k, bytes, slot with
  | .scalar s, .repeated, _, xs => if xs = [] then [] else [(.len, delimit (xs.flatMap s.bytes))]
  | T, k, bytes, slot => (slot.values (T.omitted k)).map fun v => (T.wire, bytes v)

/-- A record, with its key. -/
def recordBytes (id : ℕ) (r : WireType × Bytes) : Bytes := varintBytes (keyOf id r.1) ++ r.2

section Message

variable {n : ℕ} (h : Head n) (types : Fin n → Ty) (m : Fields h types)

/-- The values of a member that are written. -/
def Message.written (k : Fin n) : List (types k).Value :=
  (m.members k).values ((types k).omitted (h.kind k))

/-- The bytes of a member. -/
def memberBytes (bytes : (k : Fin n) → (types k).Value → Bytes) (k : Fin n) : Bytes :=
  (records (types k) (h.kind k) (bytes k) (m.members k)).flatMap (recordBytes (h.id k))

/-- A message: its members in order, and then what was not known. -/
def messageWith (bytes : (k : Fin n) → (types k).Value → Bytes) : Bytes :=
  (List.finRange n).flatMap (memberBytes h types m bytes) ++ m.unknown.bytes

/-- The sizes in the members of a message. -/
def sizesWith (sizes : (k : Fin n) → (types k).Value → List ℕ) : List ℕ :=
  (List.finRange n).flatMap fun k => (m.written h types k).flatMap (sizes k)

end Message

/-- A value behind its key, by what is in it. -/
def framed : Ty → Bytes → Bytes
  | .scalar _, p => p
  | _, p => delimit p

/-- **What is in a value**: the bytes without a length in front. -/
def contentOf : (T : Ty) → T.Value → Bytes
  | .scalar s, v => s.bytes v
  | .binary, p => p
  | .emptyStruct, _ => []
  | .message _ h types, m =>
    messageWith h types m fun k v => framed (types k) (contentOf (types k) v)
  | .lazy _ h types, (l : LazyValue (Fields h types)) =>
    match l.source with
    | some m => messageWith h types m fun k v => framed (types k) (contentOf (types k) v)
    | none => l.regionBytes

/-- **The bytes of a value**, behind its key. -/
def valueBytes (T : Ty) (v : T.Value) : Bytes := framed T (contentOf T v)

/-- **The bytes of a message.** -/
def messageBytes {n : ℕ} (h : Head n) (types : Fin n → Ty) (m : Fields h types) : Bytes :=
  messageWith h types m fun k => valueBytes (types k)

/-- The sizes of the messages in a value, in the order of writing. -/
def sizesOf : (T : Ty) → T.Value → List ℕ
  | .message _ h types, m =>
    (messageBytes h types m).length :: sizesWith h types m fun k => sizesOf (types k)
  | .lazy _ h types, (l : LazyValue (Fields h types)) =>
    match l.source with
    | some m => (messageBytes h types m).length :: sizesWith h types m fun k => sizesOf (types k)
    | none => []
  | _, _ => []

/-- No message in a value is too deep, in a message at `depth`. -/
def Nests : (T : Ty) → (depth : ℕ) → T.Value → Prop
  | .message _ h types, depth, m =>
    depth < maxTaggedDepth ∧ ∀ k, ∀ v ∈ m.written h types k, Nests (types k) (depth + 1) v
  | .lazy _ h types, depth, (l : LazyValue (Fields h types)) =>
    ∀ m ∈ l.source,
      depth < maxTaggedDepth ∧ ∀ k, ∀ v ∈ m.written h types k, Nests (types k) (depth + 1) v
  | _, _, _ => True

/-! ## Lengths -/

section Lengths

theorem length_varintBytes (v : ℕ) : (varintBytes v).length = varintSize (u64 v) :=
  (varintSize_eq _).symm

theorem length_delimit (p : Bytes) : (delimit p).length = delimitedSize p.length := by
  rw [delimit, length_append, length_varintBytes, delimitedSize]

theorem Width.bits_le (w : Width) : w.bits ≤ 64 := by cases w <;> decide

theorem bitsOf_le (wide : Bool) : bitsOf wide ≤ 64 := by cases wide <;> decide

theorem toNat_lt_64 {w : ℕ} (hw : w ≤ 64) (v : BitVec w) : v.toNat < 2 ^ 64 :=
  lt_of_lt_of_le v.isLt (Nat.pow_le_pow_right (by decide) hw)

theorem Scalar.toVarint_lt (s : Scalar) (v : s.Value) : s.toVarint v < 2 ^ 64 := by
  cases s with
  | bool => cases v <;> decide
  | int signed w | enum signed w =>
    cases signed with
    | true => exact BitVec.isLt _
    | false => exact toNat_lt_64 w.bits_le v
  | sint wide => exact toNat_lt_64 (bitsOf_le wide) _
  | fixed wide | float wide => exact Nat.two_pow_pos 64

theorem Scalar.length_bytes (s : Scalar) (v : s.Value) : (s.bytes v).length = s.size v := by
  rw [Scalar.bytes, Scalar.size]
  split
  · rw [length_varintBytes, u64_of_lt (s.toVarint_lt v)]
  rename_i hwire
  rw [fixedBytes, Scalar.width]
  rcases s.wire_cases with h | h | h
  · exact absurd h hwire
  · simp [h]
  · simp [h]

theorem Scalar.length_packed (s : Scalar) (xs : List s.Value) :
    (xs.flatMap s.bytes).length = s.packedSize xs := by
  have hsum : (xs.flatMap s.bytes).length = (xs.map s.size).sum := by
    rw [length_flatMap]
    simp only [s.length_bytes]
  rw [hsum, Scalar.packedSize]
  rcases s.wire_cases with h | h | h
  · simp [h]
  · have hsize : s.size = fun _ => 4 := funext fun v => by simp [Scalar.size, Scalar.width, h]
    simp [h, hsize, mul_comm]
  · have hsize : s.size = fun _ => 8 := funext fun v => by simp [Scalar.size, Scalar.width, h]
    simp [h, hsize, mul_comm]

theorem keyOf_eq (id : ℕ) (w : WireType) : keyOf id w = 8 * id + w.code := by
  rw [keyOf, ← Nat.shiftLeft_add_eq_or_of_lt w.code_lt]
  omega

theorem keyOf_lt (hid : id ≤ 32767) (w : WireType) : keyOf id w < 2 ^ 64 := by
  have hcode := w.code_lt
  rw [keyOf_eq]
  omega

theorem length_key (hid : id ≤ 32767) (w : WireType) :
    (varintBytes (keyOf id w)).length = varintSize (keyOf id w) := by
  rw [length_varintBytes, u64_of_lt (keyOf_lt hid w)]

end Lengths

/-! ## The first pass -/

section Measures

variable {bytes : Bytes} {sizes : List ℕ} {nests nests' : Prop}

/-- **What a part of the first pass does**: it finds the length of some
bytes, and the sizes of the messages in them, if these are not too deep. It
fails if they are, and not if the bytes are short enough. -/
structure Measures (bytes : Bytes) (sizes : List ℕ) (nests : Prop)
    (f : Measure → ℕ × Measure) : Prop where
  keeps : ∀ st, (f st).2.err = none → st.err = none ∧ nests
  finds : ∀ st, nests → (f st).1 = bytes.length ∧ (f st).2.sizes = st.sizes ++ sizes
  passes : ∀ st, nests → bytes.length ≤ maxLen → st.err = none → (f st).2.err = none

theorem Measure.err_fail (what : String) (st : Measure) : (st.fail what).err ≠ none := by
  rw [Measure.fail]
  split
  · rename_i hsome
    exact Option.isSome_iff_ne_none.1 hsome
  · exact Option.some_ne_none what

theorem Measure.err_limit {n : ℕ} {what : String} {st : Measure}
    (h : (st.limit n what).err = none) : st.err = none := by
  rw [Measure.limit] at h
  split at h
  · exact absurd h (st.err_fail what)
  · exact h

theorem Measure.sizes_limit (n : ℕ) (what : String) (st : Measure) :
    (st.limit n what).sizes = st.sizes := by
  rw [Measure.limit, Measure.fail]
  split
  · split
    · rfl
    · rfl
  · rfl

theorem measures_limit {n : ℕ} (hn : n ≤ bytes.length) (what : String) :
    Measures bytes [] True fun st => (bytes.length, st.limit n what) := by
  refine ⟨fun st h => ⟨Measure.err_limit h, trivial⟩,
    fun st _ => ⟨rfl, by rw [Measure.sizes_limit, append_nil]⟩, fun st _ hlen hst => ?_⟩
  have hle : ¬maxLen < n := by omega
  rw [Measure.limit, if_neg hle]
  exact hst

theorem measures_size (bytes : Bytes) : Measures bytes [] True fun st => (bytes.length, st) :=
  ⟨fun _ h => ⟨h, trivial⟩, fun st _ => ⟨rfl, (append_nil st.sizes).symm⟩, fun _ _ _ h => h⟩

theorem Measures.congr {f' : Measure → ℕ × Measure} (h : Measures bytes sizes nests f)
    (hb : bytes'.length = bytes.length) (hs : sizes' = sizes) (hn : nests' ↔ nests)
    (hf : ∀ st, f' st = f st) : Measures bytes' sizes' nests' f' := by
  obtain rfl := funext hf
  obtain rfl := hs
  obtain rfl := propext hn
  exact ⟨h.keeps, fun st hst => by rw [hb]; exact h.finds st hst,
    fun st hst hlen => h.passes st hst (hb ▸ hlen)⟩

theorem Measures.before (h : Measures bytes sizes nests f) (front : Bytes) :
    Measures (front ++ bytes) sizes nests fun st => (front.length + (f st).1, (f st).2) := by
  refine ⟨h.keeps, fun st hst => ⟨?_, (h.finds st hst).2⟩, fun st hst hlen => h.passes st hst ?_⟩
  · rw [length_append, (h.finds st hst).1]
  · rw [length_append] at hlen
    omega

theorem foldl_addSize {α : Type} (size : α → Measure → ℕ × Measure) (l : List α) (t : ℕ)
    (st : Measure) : l.foldl (addSize size) (t, st)
      = (t + (l.foldl (addSize size) (0, st)).1, (l.foldl (addSize size) (0, st)).2) := by
  induction l generalizing t st with
  | nil => rfl
  | cons a l ih =>
    rw [foldl_cons, foldl_cons, addSize, addSize, ih, ih (0 + _)]
    rw [zero_add, add_assoc]

theorem Measures.append {f' : Measure → ℕ × Measure} (h : Measures bytes sizes nests f)
    (h' : Measures bytes' sizes' nests' f') :
    Measures (bytes ++ bytes') (sizes ++ sizes') (nests ∧ nests')
      fun st => ((f st).1 + (f' (f st).2).1, (f' (f st).2).2) := by
  refine ⟨fun st herr => ?_, fun st hst => ?_, fun st hst hlen herr => ?_⟩
  · obtain ⟨hmid, hn'⟩ := h'.keeps _ herr
    obtain ⟨hstart, hn⟩ := h.keeps _ hmid
    exact ⟨hstart, hn, hn'⟩
  · obtain ⟨h₁, h₂⟩ := h.finds st hst.1
    obtain ⟨h₁', h₂'⟩ := h'.finds (f st).2 hst.2
    rw [h₁, h₁', h₂', h₂, length_append, append_assoc]
    exact ⟨rfl, rfl⟩
  · rw [length_append] at hlen
    exact h'.passes _ hst.2 (by omega) (h.passes st hst.1 (by omega) herr)

theorem measures_foldl {α : Type} {size : α → Measure → ℕ × Measure} {bytes : α → Bytes}
    {sizes : α → List ℕ} {nests : α → Prop}
    (hsize : ∀ a, Measures (bytes a) (sizes a) (nests a) (size a)) (l : List α) :
    Measures (l.flatMap bytes) (l.flatMap sizes) (∀ a ∈ l, nests a)
      fun st => l.foldl (addSize size) (0, st) := by
  induction l with
  | nil => exact (measures_size []).congr rfl rfl (by simp) fun _ => rfl
  | cons a l ih =>
    refine ((hsize a).append ih).congr ?_ ?_ forall_mem_cons fun st => ?_
    · rw [flatMap_cons]
    · rw [flatMap_cons]
    · rw [foldl_cons, foldl_addSize, addSize]
      rw [zero_add]

theorem memberSize_measures {k : Kind} (hid : id ≤ 32767)
    {size : T.Value → Measure → ℕ × Measure} {bytes : T.Value → Bytes} {sizes : T.Value → List ℕ}
    {nests : T.Value → Prop} (hsize : ∀ v, Measures (bytes v) (sizes v) (nests v) (size v))
    (hscalar : T.wire ≠ .len → ∀ v, sizes v = [] ∧ nests v) (slot : Slot k T.Value) :
    Measures ((records T k bytes slot).flatMap (recordBytes id))
      ((slot.values (T.omitted k)).flatMap sizes) (∀ v ∈ slot.values (T.omitted k), nests v)
      (memberSize T k id size slot) := by
  have hvalues : Measures (((slot.values (T.omitted k)).map fun v => (T.wire, bytes v)).flatMap
      (recordBytes id)) ((slot.values (T.omitted k)).flatMap sizes)
      (∀ v ∈ slot.values (T.omitted k), nests v)
      fun st => (slot.values (T.omitted k)).foldl (addSize fun v st =>
        (varintSize (keyOf id T.wire) + (size v st).1, (size v st).2)) (0, st) := by
    refine (measures_foldl (fun v => (hsize v).before (varintBytes (keyOf id T.wire))) _).congr ?_
      rfl Iff.rfl fun st => ?_
    · rw [flatMap_map]
      rfl
    · rw [length_key hid]
  cases T with
  | scalar s =>
    cases k with
    | repeated =>
      have hscalar := hscalar (by
        rcases s.wire_cases with h | h | h <;> rw [Ty.wire, h] <;> decide)
      have hsizes : (Slot.values ((Ty.scalar s).omitted .repeated) slot).flatMap sizes
          = [] := by simp [hscalar]
      have hnests : (∀ v ∈ Slot.values ((Ty.scalar s).omitted .repeated) slot, nests v)
          ↔ True := iff_true_intro fun v _ => (hscalar v).2
      rw [hsizes, hnests]
      unfold records memberSize
      dsimp only
      by_cases hnil : slot = []
      · rw [if_pos hnil]
        refine (measures_size []).congr rfl rfl Iff.rfl fun st => ?_
        rw [if_pos hnil]
        rfl
      rw [if_neg hnil]
      have hbytes : ([(WireType.len, delimit (List.flatMap s.bytes slot))].flatMap
          (recordBytes id)).length = varintSize (keyOf id .len)
            + varintSize (u64 (s.packedSize slot)) + s.packedSize slot := by
        rw [flatMap_singleton, recordBytes, length_append, length_key hid,
          length_delimit, delimitedSize, s.length_packed, add_assoc]
      refine (measures_limit (n := s.packedSize slot) (by omega)
        "a packed repeated field longer than protobuf's 2 GiB limit").congr rfl rfl Iff.rfl
        fun st => ?_
      rw [if_neg hnil, hbytes]
    | required | defaulted | optional => exact hvalues
  | _ => exact hvalues

section Message

variable {n : ℕ} {h : Head n} {types : Fin n → Ty}
  {size : (k : Fin n) → (types k).Value → Measure → ℕ × Measure}
  {bytes : (k : Fin n) → (types k).Value → Bytes} {sizes : (k : Fin n) → (types k).Value → List ℕ}
  {nests : (k : Fin n) → (types k).Value → Prop}

section

variable (hsize : ∀ k v, Measures (bytes k v) (sizes k v) (nests k v) (size k v))
  (hscalar : ∀ k, (types k).wire ≠ .len → ∀ v, sizes k v = [] ∧ nests k v) (m : Fields h types)
include hsize hscalar

theorem fields_measures :
    Measures (messageWith h types m bytes) (sizesWith h types m sizes)
      (∀ k, ∀ v ∈ m.written h types k, nests k v)
      fun st => (finRange n).foldl (addSize fun k => memberSize (types k) (h.kind k) (h.id k)
        (size k) (m.members k)) (m.unknown.bytes.length, st) := by
  have hfields := measures_foldl (fun k => memberSize_measures (h.id_le k) (hsize k) (hscalar k)
    (m.members k)) (finRange n)
  refine (hfields.before m.unknown.bytes).congr ?_ rfl ?_ fun st => foldl_addSize _ _ _ _
  · rw [messageWith, length_append, length_append, add_comm]
    rfl
  · simp [Message.written]

theorem measureWith_measures {depth : ℕ} :
    Measures (messageWith h types m bytes) (sizesWith h types m sizes)
      (depth ≤ maxTaggedDepth ∧ ∀ k, ∀ v ∈ m.written h types k, nests k v)
      (measureWith h types size depth m) := by
  have hfields := fields_measures hsize hscalar m
  refine ⟨fun st herr => ?_, fun st hst => ?_, fun st hst hlen herr => ?_⟩
  · rw [measureWith] at herr
    split at herr
    · exact absurd herr (st.err_fail _)
    rename_i hdepth
    dsimp only at herr
    split at herr
    · cases herr
    · obtain ⟨hstart, hn⟩ := hfields.keeps st herr
      exact ⟨hstart, Nat.le_of_not_lt hdepth, hn⟩
  · rw [measureWith, if_neg (not_lt.2 hst.1)]
    dsimp only
    refine ⟨(hfields.finds st hst.2).1, ?_⟩
    split
    · exact (hfields.finds st hst.2).2
    · exact (hfields.finds st hst.2).2
  · rw [measureWith, if_neg (not_lt.2 hst.1)]
    dsimp only
    rw [(hfields.finds st hst.2).1, if_neg fun hlong => not_lt.2 hlen hlong.1]
    exact hfields.passes st hst.2 hlen herr

end

theorem measureWith_le {depth : ℕ} {m : Fields h types} {st : Measure}
    (herr : (measureWith h types size depth m st).2.err = none) :
    (measureWith h types size depth m st).1 ≤ maxLen := by
  rw [measureWith] at herr ⊢
  split at herr
  · exact absurd herr (st.err_fail _)
  rename_i hdepth
  rw [if_neg hdepth]
  dsimp only at herr ⊢
  split at herr
  · cases herr
  · rename_i hlong
    exact Nat.le_of_not_lt fun hlt => hlong ⟨hlt, herr⟩

end Message

/-- The place that was kept for a size has it in the end. -/
theorem Measures.nested (h : Measures bytes sizes nests f) :
    Measures (delimit bytes) (bytes.length :: sizes) nests (nestedSize f) := by
  refine ⟨fun st herr => h.keeps { st with sizes := st.sizes ++ [0] } herr, fun st hst => ?_,
    fun st hst hlen herr => ?_⟩
  · obtain ⟨hsize, hsizes⟩ := h.finds { st with sizes := st.sizes ++ [0] } hst
    refine ⟨by rw [nestedSize, hsize, length_delimit], ?_⟩
    change set _ _ _ = _
    rw [hsizes, hsize]
    simp
  · rw [length_delimit, delimitedSize] at hlen
    exact h.passes _ hst (by omega) herr

theorem sizesOf_of_wire (hT : T.wire ≠ .len) (depth : ℕ) (v : T.Value) :
    sizesOf T v = [] ∧ Nests T depth v := by
  cases T with
  | scalar s => exact ⟨rfl, trivial⟩
  | _ => exact absurd rfl hT

/-- **The first pass measures the bytes** of a value. -/
theorem valueSize_measures (T : Ty) (depth : ℕ) (v : T.Value) :
    Measures (valueBytes T v) (sizesOf T v) (Nests T depth v) (valueSize T depth v) := by
  induction T generalizing depth with
  | scalar s =>
    refine (measures_size (s.bytes v)).congr rfl rfl Iff.rfl fun st => ?_
    rw [valueSize, s.length_bytes]
  | binary =>
    have hlimit : List.length v ≤ (delimit v).length := by rw [delimit, length_append]; omega
    refine (measures_limit hlimit
      "a string or bytes field longer than protobuf's 2 GiB limit").congr rfl rfl Iff.rfl
      fun st => ?_
    rw [length_delimit]
    rfl
  | emptyStruct =>
    have hone : (delimit []).length = 1 := by simp [delimit, varintBytes, u64, Wire.uleb128Encode]
    refine (measures_size (delimit [])).congr rfl rfl Iff.rfl fun st => ?_
    rw [hone]
    rfl
  | message n h types ih =>
    exact (measureWith_measures (fun k => ih k (depth + 1))
      (fun k hk => sizesOf_of_wire hk (depth + 1)) v).nested
  | lazy n h types ih =>
    cases v with
    | of m =>
      refine (measureWith_measures (fun k => ih k (depth + 1))
        (fun k hk => sizesOf_of_wire hk (depth + 1)) m).nested.congr rfl rfl ?_ fun st => rfl
      exact ⟨fun hm => hm m rfl, fun hm m' hm' => Option.some.inj hm' ▸ hm⟩
    | none =>
      refine (measures_size (delimit [])).congr rfl rfl
        (iff_true_intro fun m hm => by cases hm) fun st => ?_
      rw [length_delimit]
      rfl
    | region b =>
      refine (measures_size (delimit b)).congr rfl rfl
        (iff_true_intro fun m hm => by cases hm) fun st => ?_
      rw [length_delimit]
      rfl

end Measures

/-! ## The second pass -/

section Adds

/-- **What a part of the second pass does** while nothing has failed: it adds
some bytes, and takes the sizes that are in them. -/
def Adds (all : List ℕ) (bytes : Bytes) (sizes : List ℕ) (f : Encoder Direct → Encoder Direct) :
    Prop :=
  ∀ s, s.w.err = none → sizes <+: all.drop s.next →
    (f s).w = ⟨s.w.out ++ bytes, none⟩ ∧ (f s).next = s.next + sizes.length

variable {all sizes : List ℕ} {bytes : Bytes}

theorem adds_id : Adds all [] [] fun s => s := by
  intro s hs _
  refine ⟨?_, rfl⟩
  rw [append_nil, ← hs]

theorem Adds.comp {f f' : Encoder Direct → Encoder Direct} (h : Adds all bytes sizes f)
    (h' : Adds all bytes' sizes' f') :
    Adds all (bytes ++ bytes') (sizes ++ sizes') fun s => f' (f s) := by
  intro s hs hsizes
  obtain ⟨rest, hrest⟩ := hsizes
  rw [append_assoc] at hrest
  obtain ⟨hw, hnext⟩ := h s hs ⟨_, hrest⟩
  have hleft : sizes' <+: all.drop (f s).next := by
    rw [hnext, ← drop_drop, ← hrest, drop_left]
    exact prefix_append _ _
  obtain ⟨hw', hnext'⟩ := h' (f s) (by rw [hw]) hleft
  rw [hw', hnext', hw, hnext, length_append, append_assoc, add_assoc]
  exact ⟨rfl, rfl⟩

theorem adds_foldl {α : Type} {f : Encoder Direct → α → Encoder Direct} {bytes : α → Bytes}
    {sizes : α → List ℕ} (h : ∀ a, Adds all (bytes a) (sizes a) fun s => f s a) (l : List α) :
    Adds all (l.flatMap bytes) (l.flatMap sizes) fun s => l.foldl f s := by
  induction l with
  | nil => exact adds_id
  | cons a l ih => exact (h a).comp ih

theorem adds_on {f : Direct → Direct}
    (h : ∀ d : Direct, d.err = none → f d = ⟨d.out ++ bytes, none⟩) :
    Adds all bytes [] fun s => s.on f := fun s hs _ => ⟨h s.w hs, rfl⟩

theorem adds_varint (v : ℕ) : Adds all (varintBytes v) [] fun s => s.on (Writer.varint v) :=
  adds_on fun _ hd => Direct.add_of_none hd _

theorem adds_raw (p : Bytes) : Adds all p [] fun s => s.on (Writer.raw p) :=
  adds_on fun _ hd => Direct.add_of_none hd _

theorem adds_scalar (sc : Scalar) (v : sc.Value) :
    Adds all (sc.bytes v) [] fun s => s.on (writeScalar sc v) := by
  refine adds_on fun d hd => ?_
  rw [writeScalar, Scalar.bytes]
  split
  · exact Direct.add_of_none hd _
  · exact Direct.add_of_none hd _

theorem adds_bytes (p : Bytes) : Adds all (delimit p) [] fun s => s.on (writeBytes p) :=
  (adds_varint p.length).comp (adds_raw p)

theorem adds_packed (sc : Scalar) (xs : List sc.Value) :
    Adds all (delimit (xs.flatMap sc.bytes)) [] fun s => s.on (writePacked sc xs) := by
  have hvalues : Adds all _ _ _ := adds_foldl (adds_scalar sc) xs
  have hnil : xs.flatMap (fun _ => ([] : List ℕ)) = [] := by simp
  simp only [on_writePacked, delimit, sc.length_packed]
  rw [hnil] at hvalues
  exact (adds_varint (sc.packedSize xs)).comp hvalues

theorem adds_size (n : ℕ) : Adds all (varintBytes n) [n] (writeSize all) := by
  intro s hs hn
  obtain ⟨rest, hrest⟩ := hn
  have hget : all.getD s.next 0 = n := by
    have hfirst : (all.drop s.next)[0]? = some n := by rw [← hrest]; rfl
    rw [getElem?_drop, add_zero] at hfirst
    rw [getD_eq_getElem?_getD, hfirst]
    rfl
  refine ⟨?_, rfl⟩
  change Writer.varint (all.getD s.next 0) s.w = _
  rw [hget]
  exact Direct.add_of_none hs _

theorem adds_member {k : Kind} {write : T.Value → Encoder Direct → Encoder Direct}
    {bytes : T.Value → Bytes} {sizes : T.Value → List ℕ}
    (hwrite : ∀ v, Adds all (bytes v) (sizes v) (write v))
    (hscalar : T.wire ≠ .len → ∀ v, sizes v = []) (id : ℕ) (slot : Slot k T.Value) :
    Adds all ((records T k bytes slot).flatMap (recordBytes id))
      ((slot.values (T.omitted k)).flatMap sizes) (writeMember T k id write slot) := by
  have hvalues : Adds all (((slot.values (T.omitted k)).map fun v => (T.wire, bytes v)).flatMap
      (recordBytes id)) ((slot.values (T.omitted k)).flatMap sizes)
      fun s => (slot.values (T.omitted k)).foldl
        (fun s v => write v (s.on (Writer.varint (keyOf id T.wire)))) s := by
    rw [flatMap_map]
    exact adds_foldl (fun v => (adds_varint (keyOf id T.wire)).comp (hwrite v)) _
  cases T with
  | scalar sc =>
    cases k with
    | repeated =>
      have hscalar := hscalar (by
        rcases sc.wire_cases with h | h | h <;> rw [Ty.wire, h] <;> decide)
      have hsizes : (Slot.values ((Ty.scalar sc).omitted .repeated) slot).flatMap sizes
          = [] := by simp [hscalar]
      rw [hsizes]
      unfold records writeMember
      dsimp only
      split
      · exact adds_id
      · rw [flatMap_singleton]
        exact (adds_varint _).comp (adds_packed sc slot)
    | required | defaulted | optional => exact hvalues
  | _ => exact hvalues

theorem adds_message {n : ℕ} {h : Head n} {types : Fin n → Ty}
    {write : (k : Fin n) → (types k).Value → Encoder Direct → Encoder Direct}
    {bytes : (k : Fin n) → (types k).Value → Bytes} {sizes : (k : Fin n) → (types k).Value → List ℕ}
    (hwrite : ∀ k v, Adds all (bytes k v) (sizes k v) (write k v))
    (hscalar : ∀ k, (types k).wire ≠ .len → ∀ v, sizes k v = []) (m : Fields h types) :
    Adds all (messageWith h types m bytes) (sizesWith h types m sizes)
      (writeMessageWith h types write m) := by
  have hfield : ∀ k, Adds all (memberBytes h types m bytes k)
      ((m.written h types k).flatMap (sizes k)) fun s => writeField h types write m s k := by
    intro k s hs hsizes
    have hnone : ¬(Writer.err s.w).isSome := Option.not_isSome_iff_eq_none.2 hs
    change (writeField h types write m s k).w = _ ∧ (writeField h types write m s k).next = _
    rw [writeField, if_neg hnone]
    exact adds_member (hwrite k) (hscalar k) (h.id k) (m.members k)
      { s with field := h.field k } hs hsizes
  have hunknown : Adds all m.unknown.bytes [] (writeUnknown h m.unknown.bytes) := by
    intro s hs hsizes
    rw [writeUnknown]
    split
    · exact ⟨Direct.add_of_none hs _, rfl⟩
    rename_i hno
    have hnil : m.unknown.bytes = [] := by
      have hfalse := Bool.eq_false_iff.2 hno
      generalize m.unknown = u
      revert u
      rw [hfalse]
      exact fun _ => rfl
    rw [hnil]
    exact adds_id s hs hsizes
  have hall := (adds_foldl hfield (finRange n)).comp hunknown
  intro s hs hsizes
  rw [append_nil] at hall
  obtain ⟨hw, hnext⟩ := hall { s with message := h.name } hs hsizes
  have hok : ¬(Writer.err (writeUnknown h m.unknown.bytes ((finRange n).foldl
      (writeField h types write m) { s with message := h.name })).w).isSome := by
    rw [hw]
    exact Bool.false_ne_true
  rw [writeMessageWith, if_neg hok]
  exact ⟨hw, hnext⟩

/-- **The second pass adds the bytes** of a value. -/
theorem writeValue_adds (T : Ty) (v : T.Value) :
    Adds all (valueBytes T v) (sizesOf T v) (writeValue all T v) := by
  induction T with
  | scalar sc => exact adds_scalar sc v
  | binary => exact adds_bytes v
  | emptyStruct =>
    have hzero : Adds all _ _ _ := adds_varint 0
    rw [← append_nil (varintBytes 0)] at hzero
    exact hzero
  | message n h types ih =>
    exact (adds_size _).comp (adds_message ih (fun k hk v => (sizesOf_of_wire hk 0 v).1) v)
  | lazy n h types ih =>
    cases v with
    | of m =>
      exact (adds_size _).comp (adds_message ih (fun k hk v => (sizesOf_of_wire hk 0 v).1) m)
    | none => exact adds_bytes []
    | region b => exact adds_bytes b

end Adds

/-! ## What the encoder writes -/

section Encode

variable {n : ℕ} {h : Head n} {types : Fin n → Ty} (m : Fields h types) {sizes : List ℕ}

theorem measure_measures : Measures (messageBytes h types m)
    (sizesWith h types m fun k => sizesOf (types k))
    (0 ≤ maxTaggedDepth ∧ ∀ k, ∀ v ∈ m.written h types k, Nests (types k) 0 v)
    (measureWith h types (fun k => valueSize (types k) 0) 0 m) :=
  measureWith_measures (fun k => valueSize_measures (types k) 0)
    (fun _ hk => sizesOf_of_wire hk 0) m

theorem sizesOf_of_flat (hT : T.hasMessage = false) (depth : ℕ) (v : T.Value) :
    sizesOf T v = [] ∧ Nests T depth v := by
  cases T with
  | scalar | binary | emptyStruct => exact ⟨rfl, trivial⟩
  | message | lazy => cases hT

theorem flat_of_hasNested (hflat : hasNested types = false) (k : Fin n) :
    (types k).hasMessage = false := Bool.eq_false_iff.2 fun hk => of_decide_eq_false hflat ⟨k, hk⟩

/-- **What the first pass gives** is what the second one needs. -/
theorem firstPass_eq_ok (hpass : firstPass h types m = .ok sizes) :
    sizes = sizesWith h types m (fun k => sizesOf (types k)) ∧
      (∀ k, ∀ v ∈ m.written h types k, Nests (types k) 0 v) ∧
      (hasNested types = true → (messageBytes h types m).length ≤ maxLen) := by
  rw [firstPass] at hpass
  split at hpass
  · split at hpass
    · cases hpass
    · rename_i herr
      cases hpass
      have hnests := ((measure_measures m).keeps _ herr).2
      have hfinds := (measure_measures m).finds .start hnests
      refine ⟨hfinds.2, hnests.2, fun _ => ?_⟩
      rw [← hfinds.1]
      exact measureWith_le herr
  · rename_i hflat
    cases hpass
    have hflat := flat_of_hasNested (Bool.eq_false_iff.2 hflat)
    refine ⟨?_, fun k v _ => (sizesOf_of_flat (hflat k) 0 v).2, fun hyes => absurd hyes ‹_›⟩
    simp only [sizesWith, nil_eq, flatMap_eq_nil_iff]
    exact fun k _ v _ => (sizesOf_of_flat (hflat k) 0 v).1

/-- What is not too deep and not too long passes. -/
theorem firstPass_of_short (hnests : ∀ k, ∀ v ∈ m.written h types k, Nests (types k) 0 v)
    (hlen : (messageBytes h types m).length ≤ maxLen) :
    ∃ sizes, firstPass h types m = .ok sizes := by
  have herr : (measure h types m).2.err = none :=
    (measure_measures m).passes .start ⟨Nat.zero_le _, hnests⟩ hlen rfl
  rw [firstPass, herr]
  split
  · exact ⟨_, rfl⟩
  · exact ⟨_, rfl⟩

/-- **What there is to write** is the bytes of the message. -/
theorem encoding_of_firstPass (hpass : firstPass h types m = .ok sizes) :
    encoding h types sizes m = ⟨messageBytes h types m, none⟩ := by
  obtain ⟨rfl, -, -⟩ := firstPass_eq_ok m hpass
  exact (adds_message (fun k => writeValue_adds (types k))
    (fun k hk v => (sizesOf_of_wire hk 0 v).1) m ⟨⟨[], none⟩, "", "", 0⟩ rfl
    (prefix_refl _)).1

theorem secondPass_of_none {S : Type} [ByteSink S] {s : S}
    (herr : (writeTo h types sizes m (Stage.start s)).w.flush.err = none) :
    secondPass h types sizes m s = ((writeTo h types sizes m (Stage.start s)).w.flush.sink,
      .ok (writeTo h types sizes m (Stage.start s)).w.flush.total) := by
  rw [secondPass, herr]

theorem protobufEncode_free {S : Type} [ByteSink S]
    (hfree : ∀ (s : S) (p : Bytes), (ByteSink.put s p).2 = true)
    (hpass : firstPass h types m = .ok sizes) (s : S) :
    (protobufEncode h types m s).2 = .ok (messageBytes h types m).length := by
  have hgiven := given_encode h types sizes m s
  rw [encoding_of_firstPass m hpass] at hgiven
  have herr := hgiven.taken (hgiven.replay.free hfree)
  rw [protobufEncode, hpass]
  dsimp only
  rw [secondPass_of_none m herr, (hgiven.done herr).2.2.2]

theorem protobufEncode_vector (hpass : firstPass h types m = .ok sizes)
    (out : Bytes) : protobufEncode h types m (⟨out⟩ : VectorSink)
      = (⟨out ++ messageBytes h types m⟩, .ok (messageBytes h types m).length) := by
  have hgiven := given_encode h types sizes m (⟨out⟩ : VectorSink)
  rw [encoding_of_firstPass m hpass] at hgiven
  obtain ⟨hsink, htaken⟩ := hgiven.replay.vector
  have herr := hgiven.taken htaken
  obtain ⟨-, -, hblocks, htotal⟩ := hgiven.done herr
  rw [protobufEncode, hpass]
  dsimp only
  rw [secondPass_of_none m herr, ← hgiven.sink, hsink, hblocks, htotal]

theorem protobufSize_eq_ok {c : ℕ} : protobufSize h types m = .ok c ↔
    (measure h types m).2.err = none ∧ (messageBytes h types m).length = c := by
  rw [protobufSize]
  cases herr : (measure h types m).2.err with
  | some e => exact ⟨fun hsize => (nomatch hsize), fun hsize => (nomatch hsize.1)⟩
  | none =>
    have hsize := ((measure_measures m).finds .start ((measure_measures m).keeps _ herr).2).1
    rw [show (measure h types m).1 = (messageBytes h types m).length from hsize]
    simp

/-- **The two agree**, except on a message that has none in it and is over
the limit: this one has no first pass to refuse it. -/
theorem protobufSize_agrees_iff {S : Type} [ByteSink S]
    (hfree : ∀ (s : S) (p : Bytes), (ByteSink.put s p).2 = true) (s : S) :
    (∀ c, protobufSize h types m = .ok c ↔ (protobufEncode h types m s).2 = .ok c) ↔
      hasNested types = true ∨ (messageBytes h types m).length ≤ maxLen := by
  cases hnested : hasNested types with
  | true =>
    refine iff_of_true (fun c => ?_) (.inl rfl)
    rw [protobufSize_eq_ok]
    cases hpass : firstPass h types m with
    | error e =>
      rw [protobufEncode, hpass]
      refine ⟨fun hsize => ?_, fun hcode => (nomatch hcode)⟩
      rw [firstPass, if_pos hnested, hsize.1] at hpass
      cases hpass
    | ok sizes =>
      rw [protobufEncode_free m hfree hpass]
      have herr : (measure h types m).2.err = none := by
        rw [firstPass, if_pos hnested] at hpass
        split at hpass
        · cases hpass
        · assumption
      simp [herr]
  | false =>
    have hpass : firstPass h types m = .ok [] := by rw [firstPass, hnested]; rfl
    obtain ⟨-, hnests, -⟩ := firstPass_eq_ok m hpass
    have hnests := And.intro (Nat.zero_le maxTaggedDepth) hnests
    rw [protobufEncode_free m hfree hpass]
    simp only [protobufSize_eq_ok]
    constructor
    · intro hagree
      have herr := ((hagree _).2 rfl).1
      have hle := measureWith_le herr
      rw [((measure_measures m).finds .start hnests).1] at hle
      exact .inr hle
    · rintro (hno | hle) c
      · cases hno
      · have herr := (measure_measures m).passes .start hnests hle rfl
        simp [measure, herr]

end Encode

/-- A message of one string, under the id 1. -/
def text : Head 1 := .one "Text" "body" .defaulted false

def textOf (p : Bytes) : Message text fun _ => Ty.binary.Value := ⟨(), fun _ => p⟩

theorem messageBytes_textOf (hp : p ≠ []) :
    messageBytes text (fun _ => .binary) (textOf p) = varintBytes 10 ++ delimit p := by
  have hkey : keyOf 1 .len = 10 := by decide
  simp [messageBytes, messageWith, memberBytes, records, Slot.values, Ty.omitted, Ty.isDefault,
    text, Head.one, textOf, hp, recordBytes, hkey, valueBytes, framed, contentOf, Unknown.bytes,
    Ty.wire,
    finRange_succ]

theorem protobufSize_agrees_iff_text :
    (∀ (s : VectorSink) (p : Bytes), (ByteSink.put s p).2 = true) ∧
      ∀ c, protobufSize text (fun _ => .binary) (textOf [104, 105]) = .ok c ↔
        (protobufEncode text (fun _ => .binary) (textOf [104, 105]) (⟨[]⟩ : VectorSink)).2
          = .ok c := by
  refine ⟨fun _ _ => rfl, (protobufSize_agrees_iff _ (fun _ _ => rfl) _).2 (.inr ?_)⟩
  rw [messageBytes_textOf (cons_ne_nil _ _)]
  simp [delimit, varintBytes, u64, Wire.uleb128Encode, maxLen]

theorem textOf_over_limit (hlen : p.length = 2 ^ 31) :
    protobufSize text (fun _ => .binary) (textOf p)
        = .error ⟨"a string or bytes field longer than protobuf's 2 GiB limit", "Text", ""⟩ ∧
      (protobufEncode text (fun _ => .binary) (textOf p) (⟨[]⟩ : VectorSink)).2
        = .ok (2 ^ 31 + 6) := by
  have hne : p ≠ [] := by
    rintro rfl
    cases hlen
  have hmax : maxLen < p.length := by rw [hlen]; decide
  constructor
  · simp [protobufSize, measure, measureWith, memberSize, Slot.values, Ty.omitted, Ty.isDefault,
      text, Head.one, textOf, hne, finRange_succ, addSize, valueSize, Measure.limit, hmax,
      Measure.fail, Measure.start, errorOf]
  · have hpass : firstPass text (fun _ => .binary) (textOf p) = .ok [] := rfl
    have hkey : (varintBytes 10).length = 1 := by simp [varintBytes, u64, Wire.uleb128Encode]
    have hlong : (varintBytes (2 ^ 31)).length = 5 := by
      rw [varintBytes, length_uleb128Encode_eq]
      decide
    rw [protobufEncode_free _ (fun _ _ => rfl) hpass, messageBytes_textOf hne, length_append,
      delimit, length_append, hlen, hkey, hlong]
    exact congrArg Except.ok (by omega)

/-- A string of 2 GiB, which `protobuf_size` refuses. -/
theorem flat_message_over_limit :
    protobufSize text (fun _ => .binary) (textOf (List.replicate (2 ^ 31) 0))
        = .error ⟨"a string or bytes field longer than protobuf's 2 GiB limit", "Text", ""⟩ ∧
      (protobufEncode text (fun _ => .binary) (textOf (List.replicate (2 ^ 31) 0))
        (⟨[]⟩ : VectorSink)).2 = .ok (2 ^ 31 + 6) := textOf_over_limit length_replicate

end Nanom.Proto
