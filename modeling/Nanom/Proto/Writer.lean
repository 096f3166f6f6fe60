import Nanom.Proto.Reader
import Nanom.Proto.Varint
import Nanom.Tagged.Writer

/-!
# Protobuf — writing

Nested messages have their length in front. `measure` finds those lengths first,
in the order of writing, and the second pass takes them one by one. A message
without nested ones is written at once.

The second pass is written over whatever it writes to. `writeValue_sim` says that
nothing is written after a failure, and that two writers which keep in step do so
here.
-/

namespace Nanom.Proto

open Nanom.Tagged (ByteSink CountingSink Direct EncodeError LawfulWriter Sim Stage Writer)
open Nanom.Tagged.Writer (err raw varint)
open Nanom.Tagged.LawfulWriter (stuck_raw stuck_varint)
open Lockstep

/-- `max_len`: the limit of 2 GiB. -/
def maxLen : ℕ := 0x7fffffff

namespace Scalar

/-- `varint_value`. -/
def toVarint : (s : Scalar) → s.Value → ℕ
  | bool, (v : Bool) => cond v 1 0
  | int true _, v => (BitVec.ofInt 64 (BitVec.toInt v)).toNat
  | int false _, v => BitVec.toNat v
  | enum true _, v => (BitVec.ofInt 64 (BitVec.toInt v)).toNat
  | enum false _, v => BitVec.toNat v
  | sint _, v => (Wire.zigzagEncode v).toNat
  | fixed _, _ => 0
  | float _, _ => 0

/-- `fixed_bits`. -/
def toBits : (s : Scalar) → s.Value → ℕ
  | fixed _, v => BitVec.toNat v
  | float _, v => BitVec.toNat v
  | _, _ => 0

/-- `scalar_size`. -/
def size (s : Scalar) (v : s.Value) : ℕ :=
  if s.wire = .varint then varintSize (s.toVarint v) else s.width

def packedSize (s : Scalar) (xs : List s.Value) : ℕ :=
  if s.wire = .i32 then 4 * xs.length
  else if s.wire = .i64 then 8 * xs.length
  else (xs.map s.size).sum

end Scalar

def Ty.isDefault : (T : Ty) → T.Value → Bool
  | .scalar s, v => decide (v = s.init)
  | .binary, p => List.isEmpty p
  | _, _ => false

/-- Whether a single member is left off the wire. -/
def Ty.omitted : (T : Ty) → Kind → T.Value → Bool
  | .lazy _ _ _, _, l => !LazyValue.hasValue l
  | T, k, v => k == .defaulted && T.isDefault v

/-- The values of a member that are written: a single one that is not left
off, one that is there, or all of them. -/
def Slot.values {V : Type} (omitted : V → Bool) : {k : Kind} → Slot k V → List V
  | .required, v => if omitted v then [] else [v]
  | .defaulted, v => if omitted v then [] else [v]
  | .optional, v => Option.toList v
  | .repeated, vs => vs

def keyOf (id : ℕ) (w : WireType) : ℕ := id <<< 3 ||| w.code

def Ty.hasMessage : Ty → Bool
  | .message _ _ _ => true
  | .lazy _ _ _ => true
  | _ => false

def hasNested {n : ℕ} (types : Fin n → Ty) : Bool := decide (∃ k, (types k).hasMessage = true)

namespace LazyValue

variable {V : Type}

def source : LazyValue V → Option V
  | of m => some m
  | _ => Option.none

/-- `pb_lazy::region`. -/
def regionBytes : LazyValue V → Bytes
  | region b => b
  | _ => []

end LazyValue

/-! ## The first pass -/

/-- `state`, while it is measured: the first error, the message it names,
and the sizes so far. -/
structure Measure where
  err : Option String
  message : String
  sizes : List ℕ

namespace Measure

def fail (what : String) (st : Measure) : Measure :=
  if st.err.isSome then st else { st with err := some what }

/-- An error if there is too much of something. -/
def limit (n : ℕ) (what : String) (st : Measure) : Measure :=
  if maxLen < n then st.fail what else st

def start : Measure := ⟨none, "", []⟩

end Measure

/-- A size, added to those there are. -/
def addSize {α : Type} (size : α → Measure → ℕ × Measure) (acc : ℕ × Measure) (a : α) :
    ℕ × Measure :=
  let r := size a acc.2
  (acc.1 + r.1, r.2)

/-- What `measure` adds for a member. -/
def memberSize (T : Ty) (k : Kind) (id : ℕ) (size : T.Value → Measure → ℕ × Measure)
    (slot : Slot k T.Value) (st : Measure) : ℕ × Measure :=
  match T, k, size, slot with
  | .scalar s, .repeated, _, xs =>
    if xs = [] then (0, st)
    else
      let n := s.packedSize xs
      (varintSize (keyOf id .len) + varintSize (u64 n) + n,
        st.limit n "a packed repeated field longer than protobuf's 2 GiB limit")
  | T, k, size, slot =>
    (slot.values (T.omitted k)).foldl
      (addSize fun v st => (varintSize (keyOf id T.wire) + (size v st).1, (size v st).2)) (0, st)

section Message

variable {n : ℕ}

/-- `measure`, over the size of a value. -/
def measureWith (h : Head n) (types : Fin n → Ty)
    (size : (k : Fin n) → (types k).Value → Measure → ℕ × Measure) (depth : ℕ)
    (m : Fields h types) (st : Measure) : ℕ × Measure :=
  if maxTaggedDepth < depth then
    (0, st.fail "protobuf nesting within the decoder's depth limit")
  else
    let r := (List.finRange n).foldl (addSize fun k =>
      memberSize (types k) (h.kind k) (h.id k) (size k) (m.members k)) (m.unknown.bytes.length, st)
    (r.1, if maxLen < r.1 ∧ r.2.err = none then
        { r.2 with message := h.name, err := some "a message longer than protobuf's 2 GiB limit" }
      else r.2)

/-- The size of a length and what is behind it. -/
def delimitedSize (n : ℕ) : ℕ := varintSize (u64 n) + n

/-- The `Message` case of `value_size`: there is a place for the size before
it is known. -/
def nestedSize (measure : Measure → ℕ × Measure) (st : Measure) : ℕ × Measure :=
  let k := st.sizes.length
  let r := measure { st with sizes := st.sizes ++ [0] }
  (delimitedSize r.1, { r.2 with sizes := r.2.sizes.set k r.1 })

end Message

/-- `value_size`, in a message at `depth`. -/
def valueSize : (T : Ty) → (depth : ℕ) → T.Value → Measure → ℕ × Measure
  | .emptyStruct, _, _, st => (1, st)
  | .lazy _ h types, depth, (l : LazyValue (Fields h types)), st =>
    match l.source with
    | some m => nestedSize
        (measureWith h types (fun k => valueSize (types k) (depth + 1)) (depth + 1) m) st
    | none => (delimitedSize l.regionBytes.length, st)
  | .message _ h types, depth, m, st =>
    nestedSize (measureWith h types (fun k => valueSize (types k) (depth + 1)) (depth + 1) m) st
  | .binary, _, (p : Bytes), st =>
    (delimitedSize p.length,
      st.limit p.length "a string or bytes field longer than protobuf's 2 GiB limit")
  | .scalar s, _, v, st => (s.size v, st)

/-- `measure`, of the outermost message. -/
def measure {n : ℕ} (h : Head n) (types : Fin n → Ty) (m : Fields h types) : ℕ × Measure :=
  measureWith h types (fun k => valueSize (types k) 0) 0 m .start

/-! ## The second pass -/

/-- The writer, where the encoder is, and the sizes it has taken. -/
structure Encoder (W : Type) where
  w : W
  message : String
  field : String
  next : ℕ

section Model

variable {W : Type} [Writer W]

/-- Something that is written where the encoder is. -/
def Encoder.on (s : Encoder W) (f : W → W) : Encoder W := { s with w := f s.w }

def writeScalar (s : Scalar) (v : s.Value) (w : W) : W :=
  if s.wire = .varint then Writer.varint (s.toVarint v) w
  else Writer.fixed (s.toBits v) (decide (s.wire = .i64)) w

/-- A length, and the bytes behind it. -/
def writeBytes (p : Bytes) (w : W) : W := Writer.raw p (Writer.varint p.length w)

/-- A packed field, behind its key. -/
def writePacked (s : Scalar) (xs : List s.Value) (w : W) : W :=
  xs.foldl (fun w x => writeScalar s x w) (Writer.varint (s.packedSize xs) w)

/-- The next size. -/
def writeSize (sizes : List ℕ) (s : Encoder W) : Encoder W :=
  { s with w := Writer.varint (sizes.getD s.next 0) s.w, next := s.next + 1 }

/-- What is written for a member. -/
def writeMember (T : Ty) (k : Kind) (id : ℕ) (write : T.Value → Encoder W → Encoder W)
    (slot : Slot k T.Value) (s : Encoder W) : Encoder W :=
  match T, k, write, slot with
  | .scalar sc, .repeated, _, xs =>
    if xs = [] then s else (s.on (Writer.varint (keyOf id .len))).on (writePacked sc xs)
  | T, k, write, slot =>
    (slot.values (T.omitted k)).foldl
      (fun s v => write v (s.on (Writer.varint (keyOf id T.wire)))) s

section Message

variable {n : ℕ}

/-- One field of `write_message`. -/
def writeField (h : Head n) (types : Fin n → Ty)
    (write : (k : Fin n) → (types k).Value → Encoder W → Encoder W)
    (m : Fields h types) (s : Encoder W) (k : Fin n) : Encoder W :=
  if (Writer.err s.w).isSome then s
  else writeMember (types k) (h.kind k) (h.id k) (write k) (m.members k)
    { s with field := h.field k }

/-- The bytes of a `pb_unknown`: where the encoder is then is set in any
case. -/
def writeUnknown (h : Head n) (p : Bytes) (s : Encoder W) : Encoder W :=
  if h.unknown then { s with field := "(unknown fields)", w := Writer.raw p s.w } else s

/-- `write_message`, over the writer of its members. -/
def writeMessageWith (h : Head n) (types : Fin n → Ty)
    (write : (k : Fin n) → (types k).Value → Encoder W → Encoder W)
    (m : Fields h types) (s : Encoder W) : Encoder W :=
  let e := writeUnknown h m.unknown.bytes
    ((List.finRange n).foldl (writeField h types write m) { s with message := h.name })
  if (Writer.err e.w).isSome then e else { e with message := s.message, field := s.field }

end Message

def writeValue (sizes : List ℕ) : (T : Ty) → T.Value → Encoder W → Encoder W
  | .emptyStruct, _, s => s.on (Writer.varint 0)
  | .lazy _ h types, (l : LazyValue (Fields h types)), s =>
    match l.source with
    | some m =>
      writeMessageWith h types (fun k => writeValue sizes (types k)) m (writeSize sizes s)
    | none => s.on (writeBytes l.regionBytes)
  | .message _ h types, m, s =>
    writeMessageWith h types (fun k => writeValue sizes (types k)) m (writeSize sizes s)
  | .binary, (p : Bytes), s => s.on (writeBytes p)
  | .scalar sc, v, s => s.on (writeScalar sc v)

/-- A message, written to `w`. -/
def writeTo {n : ℕ} (h : Head n) (types : Fin n → Ty) (sizes : List ℕ)
    (m : Fields h types) (w : W) : Encoder W :=
  writeMessageWith h types (fun k => writeValue sizes (types k)) m ⟨w, "", "", 0⟩

end Model

section Encode

variable {n : ℕ} (h : Head n) (types : Fin n → Ty)

def errorOf (what message field : String) : EncodeError :=
  ⟨what, if message = "" then h.name else message, field⟩

/-- What the first pass gives the second, if there is a first one. -/
def firstPass (m : Fields h types) : Except EncodeError (List ℕ) :=
  if hasNested types then
    match (measure h types m).2.err with
    | some e => .error (errorOf h e (measure h types m).2.message "")
    | none => .ok (measure h types m).2.sizes
  else .ok []

/-- The second pass, and the last `flush`. -/
def secondPass {S : Type} [ByteSink S] (sizes : List ℕ) (m : Fields h types)
    (sink : S) : S × Except EncodeError ℕ :=
  let s := writeTo h types sizes m (Stage.start sink)
  let w := s.w.flush
  (w.sink, match w.err with
    | some e => .error (errorOf h e s.message s.field)
    | none => .ok w.total)

/-- `protobuf_encode`: what the sink has then, and the bytes written or why
not. -/
def protobufEncode {S : Type} [ByteSink S] (m : Fields h types) (sink : S) :
    S × Except EncodeError ℕ :=
  match firstPass h types m with
  | .error e => (sink, .error e)
  | .ok sizes => secondPass h types sizes m sink

def protobufSize (m : Fields h types) : Except EncodeError ℕ :=
  match (measure h types m).2.err with
  | some e => .error (errorOf h e (measure h types m).2.message "")
  | none => .ok (measure h types m).1

end Encode

/-! ## Nothing after a failure -/

section Stuck

variable {W : Type} [Writer W]

/-- A packed field is written as its length and its values are. -/
theorem on_writePacked (sc : Scalar) (xs : List sc.Value) (s : Encoder W) :
    s.on (writePacked sc xs) = xs.foldl (fun s x => s.on (writeScalar sc x))
      (s.on (varint (sc.packedSize xs))) := by
  change s.on (fun w : W => xs.foldl (fun w x => writeScalar sc x w)
    (varint (sc.packedSize xs) w)) = _
  generalize varint (W := W) (sc.packedSize xs) = f
  induction xs generalizing f with
  | nil => rfl
  | cons x xs ih => exact ih fun w => writeScalar sc x (f w)

variable [LawfulWriter W] {w : W}

theorem stuck_scalar (sc : Scalar) (v : sc.Value) (hw : (err w).isSome) :
    writeScalar sc v w = w := by
  rw [writeScalar]
  split
  · exact stuck_varint _ hw
  · exact LawfulWriter.stuck_fixed _ _ hw

theorem stuck_bytes (p : Bytes) (hw : (err w).isSome) : writeBytes p w = w := by
  rw [writeBytes, stuck_varint _ hw, stuck_raw _ hw]

end Stuck

/-! ## Two writers in step -/

section Step

variable {W V : Type} [Writer W] [Writer V] {R : W → V → Prop}

/-- The number is that of the sizes taken. -/
instance : Machine (Encoder W) W := ⟨Encoder.w, fun w => (err w).isSome, Encoder.next⟩

theorem inStep_on {f : W → W} {g : V → V} (hf : ∀ {w : W}, (err w).isSome → f w = w)
    (hg : ∀ {v : V}, (err v).isSome → g v = v) (h : ∀ {w v}, R w v → R (f w) (g v)) :
    InStep R (fun s : Encoder W => s.on f) fun t : Encoder V => t.on g :=
  inStep_of_view (fun _ => hf) (fun _ => hg) (fun _ => rfl) (fun _ => rfl) h

variable [LawfulWriter W] [LawfulWriter V]

section

variable (hR : Sim R)
include hR

theorem inStep_varint (v : ℕ) :
    InStep R (fun s : Encoder W => s.on (varint v)) fun t : Encoder V => t.on (varint v) :=
  inStep_on (stuck_varint v) (stuck_varint v) (hR.varint v)

theorem inStep_scalar (sc : Scalar) (v : sc.Value) :
    InStep R (fun s : Encoder W => s.on (writeScalar sc v))
      fun t : Encoder V => t.on (writeScalar sc v) := by
  refine inStep_on (stuck_scalar sc v) (stuck_scalar sc v) fun h => ?_
  rw [writeScalar, writeScalar]
  split
  · exact hR.varint _ h
  · exact hR.fixed _ _ h

theorem inStep_bytes (p : Bytes) :
    InStep R (fun s : Encoder W => s.on (writeBytes p)) fun t : Encoder V => t.on (writeBytes p) :=
  inStep_on (stuck_bytes p) (stuck_bytes p) fun h => hR.raw _ (hR.varint _ h)

theorem inStep_packed (sc : Scalar) (xs : List sc.Value) :
    InStep R (fun s : Encoder W => s.on (writePacked sc xs))
      fun t : Encoder V => t.on (writePacked sc xs) := by
  simp only [on_writePacked]
  exact (inStep_varint hR _).comp (inStep_foldl (inStep_scalar hR sc) xs)

/-- The two take the same size, or one of them has failed and writes
nothing. -/
theorem inStep_size (sizes : List ℕ) :
    InStep R (writeSize (W := W) sizes) (writeSize (W := V) sizes) :=
  InStep.of_mark
    (f := fun k (s : Encoder W) => { s with w := varint (sizes.getD k 0) s.w, next := k + 1 })
    (g := fun k (t : Encoder V) => { t with w := varint (sizes.getD k 0) t.w, next := k + 1 })
    fun _ => ⟨fun _ hs => stuck_varint _ hs, fun _ ht => stuck_varint _ ht,
      fun hst => ⟨hR.varint _ hst.view, fun _ _ => rfl⟩⟩

theorem inStep_member {T : Ty} {k : Kind} {write : T.Value → Encoder W → Encoder W}
    {write' : T.Value → Encoder V → Encoder V} (hwrite : ∀ v, InStep R (write v) (write' v))
    (id : ℕ) (slot : Slot k T.Value) :
    InStep R (writeMember T k id write slot) (writeMember T k id write' slot) := by
  have hvalues : InStep R (fun s => (slot.values (T.omitted k)).foldl
        (fun s v => write v (s.on (varint (keyOf id T.wire)))) s)
      fun t => (slot.values (T.omitted k)).foldl
        (fun t v => write' v (t.on (varint (keyOf id T.wire)))) t :=
    inStep_foldl (fun v => (inStep_varint hR _).comp (hwrite v)) _
  cases T with
  | scalar sc =>
    cases k with
    | repeated =>
      unfold writeMember
      dsimp only
      split
      · exact inStep_id
      · exact (inStep_varint hR _).comp (inStep_packed hR sc slot)
    | required | defaulted | optional => exact hvalues
  | _ => exact hvalues

theorem inStep_unknown {n : ℕ} (h : Head n) (p : Bytes) :
    InStep R (writeUnknown (W := W) h p) (writeUnknown (W := V) h p) := by
  unfold writeUnknown
  split
  · exact (inStep_on (stuck_raw p) (stuck_raw p) (hR.raw p)).congr (fun _ => ⟨rfl, fun _ => rfl⟩)
      fun _ => ⟨rfl, fun _ => rfl⟩
  · exact inStep_id

theorem inStep_message {n : ℕ} {h : Head n} {types : Fin n → Ty}
    {write : (k : Fin n) → (types k).Value → Encoder W → Encoder W}
    {write' : (k : Fin n) → (types k).Value → Encoder V → Encoder V}
    (hwrite : ∀ k v, InStep R (write k v) (write' k v)) (m : Fields h types) :
    InStep R (writeMessageWith h types write m) (writeMessageWith h types write' m) := by
  have hfield : ∀ k, InStep R (fun s => writeField h types write m s k)
      fun t => writeField h types write' m t k := by
    intro k
    have hname : InStep R (fun s : Encoder W => { s with field := h.field k })
        fun t : Encoder V => { t with field := h.field k } :=
      inStep_silent (fun _ => ⟨rfl, rfl⟩) fun _ => ⟨rfl, rfl⟩
    exact (hname.comp (inStep_member hR (hwrite k) (h.id k) (m.members k))).guard
      (fun _ => ⟨fun h => if_pos h, fun h => if_neg h⟩)
      fun _ => ⟨fun h => if_pos h, fun h => if_neg h⟩
  have hname : InStep R (fun s : Encoder W => { s with message := h.name })
      fun t : Encoder V => { t with message := h.name } :=
    inStep_silent (fun _ => ⟨rfl, rfl⟩) fun _ => ⟨rfl, rfl⟩
  have hend : ∀ {X : Type} [Writer X] (e : Encoder X) (a b : String),
      (if (err e.w).isSome then e else { e with message := a, field := b }).w = e.w ∧
      (if (err e.w).isSome then e else { e with message := a, field := b }).next = e.next := by
    intro X _ e a b
    split
    · exact ⟨rfl, rfl⟩
    · exact ⟨rfl, rfl⟩
  refine ((hname.comp (inStep_foldl hfield (List.finRange n))).comp
    (inStep_unknown hR h m.unknown.bytes)).congr (fun s => ?_) fun t => ?_
  · exact ⟨(hend _ _ _).1, fun _ => (hend _ _ _).2⟩
  · exact ⟨(hend _ _ _).1, fun _ => (hend _ _ _).2⟩

/-- **Two writers in step stay in step**, whatever is written. -/
theorem writeValue_sim (sizes : List ℕ) (T : Ty) (v : T.Value) :
    InStep R (writeValue (W := W) sizes T v) (writeValue (W := V) sizes T v) := by
  induction T with
  | scalar sc => exact inStep_scalar hR sc v
  | binary => exact inStep_bytes hR v
  | emptyStruct => exact inStep_varint hR 0
  | message n h types ih => exact (inStep_size hR sizes).comp (inStep_message hR ih v)
  | lazy n h types ih =>
    cases v with
    | of m => exact (inStep_size hR sizes).comp (inStep_message hR ih m)
    | none | region b => exact inStep_bytes hR _

end

end Step

/-! ## What a sink gets -/

section Encode

open Nanom.Tagged (Given Logged VectorSink given_of_tracks recorded_start sim_recorded sim_tracks
  tracks_start)

variable {n : ℕ} (h : Head n) (types : Fin n → Ty) (sizes : List ℕ) (m : Fields h types)

/-- **What there is to write** for a message, once it is measured. -/
def encoding : Direct := (writeTo h types sizes m (⟨[], none⟩ : Direct)).w

theorem writeTo_sim {W V : Type} [Writer W] [LawfulWriter W] [Writer V] [LawfulWriter V]
    {R : W → V → Prop} (hR : Sim R) {w : W} {v : V} (hwv : R w v) :
    R (writeTo h types sizes m w).w (writeTo h types sizes m v).w :=
  ((inStep_message hR (fun k => writeValue_sim hR sizes (types k)) m).along
    (s := ⟨w, "", "", 0⟩) (t := ⟨v, "", "", 0⟩) ⟨hwv, fun _ _ => rfl⟩).view

theorem given_encode {S : Type} [ByteSink S] (s : S) :
    Given s (encoding h types sizes m) (writeTo h types sizes m (Stage.start s)).w.flush
      (writeTo h types sizes m (Stage.start (⟨s, []⟩ : Logged S))).w.flush.sink :=
  given_of_tracks (writeTo_sim h types sizes m sim_recorded (recorded_start s))
    (writeTo_sim h types sizes m sim_tracks (tracks_start s))

end Encode

end Nanom.Proto
