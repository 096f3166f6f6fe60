import Nanom.Common.Lockstep
import Nanom.Tagged.Schema
import Nanom.Tagged.Sink

/-!
# Thrift compact — writing

The encoder, over whatever it writes to. `writeValue` recurses over the type,
and `writeStruct` writes the fields that are there, in order, with the ids as
deltas where these are small.

`writeValue_sim` says that nothing is written after a failure, and that two
writers which keep in step do so here.
-/

namespace Nanom.Tagged

open Writer (err raw u8)

open LawfulWriter (stuck_fail stuck_raw stuck_u8 stuck_varint)

open Lockstep

/-- `INT32_MAX`. -/
def i32Max : ℕ := 2 ^ 31 - 1

/-- The writer, and where the encoder is. -/
structure Encoder (W : Type) where
  w : W
  message : String
  field : String

structure EncodeError where
  what : String
  message : String
  field : String
  deriving DecidableEq

section Model

variable {W : Type} [Writer W]

/-- Something that is written where the encoder is. -/
def Encoder.on (s : Encoder W) (f : W → W) : Encoder W := { s with w := f s.w }

/-- `writer::length`, and the bytes behind it. -/
def writeBinary (p : Bytes) (w : W) : W :=
  if i32Max < p.length then
    Writer.fail "a string, binary or list longer than the wire's i32 length" w
  else Writer.raw p (Writer.varint p.length w)

def listHeader (n et : ℕ) (w : W) : W :=
  if i32Max < n then Writer.fail "a list longer than the wire's i32 count" w
  else if n < 15 then Writer.u8 (UInt8.ofNat (n <<< 4 ||| et)) w
  else Writer.varint n (Writer.u8 (UInt8.ofNat (0xf0 ||| et)) w)

/-- The header of a field. -/
def fieldHeader (last id type : ℕ) (w : W) : W :=
  let delta : ℤ := id - last
  if 1 ≤ delta ∧ delta ≤ 15 then Writer.u8 (UInt8.ofNat (delta.toNat <<< 4 ||| type)) w
  else Writer.varint (Wire.zigzagEncode (BitVec.ofNat 16 id)).toNat (Writer.u8 (UInt8.ofNat type) w)

/-- The type in the header of a field: a `bool` is there. -/
def fieldType (T : Ty) (v : T.Value) : ℕ :=
  match T, v with
  | .bool, (v : Bool) => cond v (CType.code .boolTrue) (CType.code .boolFalse)
  | T, _ => T.typeOf.code

/-- What is behind the header of a field. -/
def writeMember (T : Ty) (write : T.Value → Encoder W → Encoder W) (v : T.Value) (s : Encoder W) :
    Encoder W :=
  match T, write, v with
  | .bool, _, _ => s
  | _, write, v => write v s

/-- One field of `write_struct`, with the id of the last one written. -/
def writeField {n : ℕ} (h : Head n) (types : Fin n → Ty)
    (write : (k : Fin n) → (types k).Value → Encoder W → Encoder W)
    (m : Fields h types) (s : Encoder W × ℕ) (k : Fin n) : Encoder W × ℕ :=
  if (Writer.err s.1.w).isSome then s
  else
    let e := { s.1 with field := h.field k }
    match (m k).get? with
    | none => (e, s.2)
    | some v =>
      (writeMember (types k) (write k) v
        (e.on (fieldHeader s.2 (h.id k) (fieldType (types k) v))), h.id k)

/-- `write_struct`, over the writer of its members. -/
def writeStructWith {n : ℕ} (h : Head n) (types : Fin n → Ty)
    (write : (k : Fin n) → (types k).Value → Encoder W → Encoder W)
    (m : Fields h types) (s : Encoder W) : Encoder W :=
  let e := ((List.finRange n).foldl (writeField h types write m)
    ({ s with message := h.name }, 0)).1
  if (Writer.err e.w).isSome then e else ⟨Writer.u8 0 e.w, s.message, s.field⟩

def writeValue : (T : Ty) → T.Value → Encoder W → Encoder W
  | .bool, (v : Bool), s => s.on (Writer.u8 (cond v 1 2))
  | .i8, v, s => s.on (Writer.u8 (UInt8.ofBitVec v))
  | .i16, v, s => s.on (Writer.varint (Wire.zigzagEncode (v : BitVec 16)).toNat)
  | .i32, v, s => s.on (Writer.varint (Wire.zigzagEncode (v : BitVec 32)).toNat)
  | .i64, v, s => s.on (Writer.varint (Wire.zigzagEncode (v : BitVec 64)).toNat)
  | .dbl, v, s => s.on (Writer.raw (leBytes 8 (v : BitVec 64).toNat))
  | .enum, v, s => s.on (Writer.varint (Wire.zigzagEncode (v : BitVec 32)).toNat)
  | .binary, v, s => s.on (writeBinary v)
  | .vector E, (xs : List E.Value), s =>
    xs.foldl (fun s x => writeValue E x s) (s.on (listHeader xs.length E.typeOf.code))
  | .list E, (l : ListValue E.Value), s =>
    match l with
    | .of xs => xs.foldl (fun s x => writeValue E x s) (s.on (listHeader xs.length E.typeOf.code))
    | .wire region count elemWire _ =>
      (s.on (listHeader count (if count ≠ 0 then elemWire else E.typeOf.code))).on
        (Writer.raw region)
  | .lazy _ h types, (l : LazyValue (Fields h types)), s =>
    match l with
    | .of m => writeStructWith h types (fun k => writeValue (types k)) m s
    | .wire region _ =>
      if region ≠ [] then s.on (Writer.raw region)
      else s.on (Writer.fail
        "a nested message (lazy<M>) that was neither decoded nor set with lazy<M>::of()")
  | .emptyStruct, _, s => s.on (Writer.u8 0)
  | .message _ h types, m, s => writeStructWith h types (fun k => writeValue (types k)) m s

def writeStruct {n : ℕ} (h : Head n) (types : Fin n → Ty) :
    Fields h types → Encoder W → Encoder W :=
  writeStructWith h types fun k => writeValue (types k)

/-- A message, written to `w`. -/
def writeTo {n : ℕ} (h : Head n) (types : Fin n → Ty) (m : Fields h types) (w : W) : Encoder W :=
  writeStruct h types m ⟨w, "", ""⟩

end Model

/-- `thrift_compact_encode`: what the sink has then, and the bytes written
or why not. -/
def thriftCompactEncode {S : Type} [ByteSink S] {n : ℕ} (h : Head n) (types : Fin n → Ty)
    (m : Fields h types) (sink : S) : S × Except EncodeError ℕ :=
  let s := writeTo h types m (Stage.start sink)
  let w := s.w.flush
  (w.sink, match w.err with
    | some e => .error ⟨e, s.message, s.field⟩
    | none => .ok w.total)

def thriftCompactSize {n : ℕ} (h : Head n) (types : Fin n → Ty)
    (m : Fields h types) : Except EncodeError ℕ :=
  (thriftCompactEncode h types m (⟨0⟩ : CountingSink)).2

/-! ## Nothing after a failure -/

section Stuck

variable {W : Type} [Writer W] [LawfulWriter W] {w : W}

theorem stuck_binary (p : Bytes) (hw : (err w).isSome) : writeBinary p w = w := by
  rw [writeBinary]
  split
  · exact stuck_fail _ hw
  · rw [stuck_varint _ hw, stuck_raw _ hw]

theorem stuck_listHeader (n et : ℕ) (hw : (err w).isSome) : listHeader n et w = w := by
  rw [listHeader]
  split
  · exact stuck_fail _ hw
  · split
    · exact stuck_u8 _ hw
    · rw [stuck_u8 _ hw, stuck_varint _ hw]

theorem stuck_fieldHeader (last id type : ℕ) (hw : (err w).isSome) :
    fieldHeader last id type w = w := by
  rw [fieldHeader]
  split
  · exact stuck_u8 _ hw
  · rw [stuck_u8 _ hw, stuck_varint _ hw]

end Stuck

/-! ## Two writers in step -/

section Step

variable {W V : Type} [Writer W] [Writer V] {R : W → V → Prop}

instance : Machine (Encoder W) W := ⟨Encoder.w, fun w => (err w).isSome, fun _ => 0⟩

/-- Within a struct the number is the id of the last field written. -/
instance : Machine (Encoder W × ℕ) W := ⟨fun s => s.1.w, fun w => (err w).isSome, Prod.snd⟩

/-- A field behind one with the id `last`, where nothing has failed. -/
def fieldAfter {n : ℕ} (h : Head n) (types : Fin n → Ty)
    (write : (k : Fin n) → (types k).Value → Encoder W → Encoder W)
    (m : Fields h types) (k : Fin n) (last : ℕ) (s : Encoder W × ℕ) : Encoder W × ℕ :=
  let e := { s.1 with field := h.field k }
  match (m k).get? with
  | none => (e, s.2)
  | some v => (writeMember (types k) (write k) v
      (e.on (fieldHeader last (h.id k) (fieldType (types k) v))), h.id k)

theorem inStep_on {f : W → W} {g : V → V} (hf : ∀ {w : W}, (err w).isSome → f w = w)
    (hg : ∀ {v : V}, (err v).isSome → g v = v) (h : ∀ {w v}, R w v → R (f w) (g v)) :
    InStep R (fun s : Encoder W => s.on f) fun t : Encoder V => t.on g :=
  inStep_of_view (fun _ => hf) (fun _ => hg) (fun _ => rfl) (fun _ => rfl) h

section Ops

variable [LawfulWriter W] [LawfulWriter V] (hR : Sim R)
include hR

theorem inStep_u8 (b : UInt8) :
    InStep R (fun s : Encoder W => s.on (u8 b)) fun t : Encoder V => t.on (u8 b) :=
  inStep_on (stuck_u8 b) (stuck_u8 b) (hR.u8 b)

theorem inStep_varint (v : ℕ) :
    InStep R (fun s : Encoder W => s.on (Writer.varint v))
      fun t : Encoder V => t.on (Writer.varint v) :=
  inStep_on (stuck_varint v) (stuck_varint v) (hR.varint v)

theorem inStep_raw (p : Bytes) :
    InStep R (fun s : Encoder W => s.on (raw p)) fun t : Encoder V => t.on (raw p) :=
  inStep_on (stuck_raw p) (stuck_raw p) (hR.raw p)

theorem inStep_binary (p : Bytes) :
    InStep R (fun s : Encoder W => s.on (writeBinary p))
      fun t : Encoder V => t.on (writeBinary p) := by
  refine inStep_on (stuck_binary p) (stuck_binary p) fun h => ?_
  rw [writeBinary, writeBinary]
  split
  · exact hR.fail _ h
  · exact hR.raw _ (hR.varint _ h)

theorem inStep_listHeader (n et : ℕ) :
    InStep R (fun s : Encoder W => s.on (listHeader n et))
      fun t : Encoder V => t.on (listHeader n et) := by
  refine inStep_on (stuck_listHeader n et) (stuck_listHeader n et) fun h => ?_
  rw [listHeader, listHeader]
  split
  · exact hR.fail _ h
  · split
    · exact hR.u8 _ h
    · exact hR.varint _ (hR.u8 _ h)

theorem inStep_fieldHeader (last id type : ℕ) :
    InStep R (fun s : Encoder W => s.on (fieldHeader last id type))
      fun t : Encoder V => t.on (fieldHeader last id type) := by
  refine inStep_on (stuck_fieldHeader last id type) (stuck_fieldHeader last id type) fun h => ?_
  rw [fieldHeader, fieldHeader]
  split
  · exact hR.u8 _ h
  · exact hR.varint _ (hR.u8 _ h)

theorem inStep_member {T : Ty} {write : T.Value → Encoder W → Encoder W}
    {write' : T.Value → Encoder V → Encoder V} (hwrite : ∀ v, InStep R (write v) (write' v))
    (last id : ℕ) (v : T.Value) :
    InStep R (fun s => writeMember T write v (s.on (fieldHeader last id (fieldType T v))))
      fun t => writeMember T write' v (t.on (fieldHeader last id (fieldType T v))) := by
  have hheader := inStep_fieldHeader hR last id (fieldType T v)
  cases T with
  | bool => exact hheader
  | _ => exact hheader.comp (hwrite v)

variable {n : ℕ} {h : Head n} {types : Fin n → Ty}
  {write : (k : Fin n) → (types k).Value → Encoder W → Encoder W}
  {write' : (k : Fin n) → (types k).Value → Encoder V → Encoder V}
  (hwrite : ∀ k v, InStep R (write k v) (write' k v)) (m : Fields h types)
include hwrite

theorem inStep_fieldAfter (k : Fin n) (last : ℕ) :
    InStep R (fieldAfter h types write m k last) (fieldAfter h types write' m k last) := by
  unfold fieldAfter
  split
  · exact inStep_silent (fun _ => ⟨rfl, rfl⟩) fun _ => ⟨rfl, rfl⟩
  · rename_i v hv
    have hmember := inStep_member hR (hwrite k) last (h.id k) v
    exact ⟨fun s hs => hmember.left { s.1 with field := h.field k } hs,
      fun t ht => hmember.right { t.1 with field := h.field k } ht,
      fun {s t} hst => ⟨(hmember.along (s := { s.1 with field := h.field k })
        (t := { t.1 with field := h.field k }) ⟨hst.view, fun _ _ => rfl⟩).view, fun _ _ => rfl⟩⟩

/-- The header of a field depends on the last one, which the two have in common
unless one of them has failed. -/
theorem inStep_field (k : Fin n) : InStep R (fun s => writeField h types write m s k)
    fun t => writeField h types write' m t k :=
  (InStep.of_mark (inStep_fieldAfter hR hwrite m k)).guard
    (fun _ => ⟨fun h => if_pos h, fun h => if_neg h⟩)
    fun _ => ⟨fun h => if_pos h, fun h => if_neg h⟩

theorem inStep_struct :
    InStep R (writeStructWith h types write m) (writeStructWith h types write' m) := by
  have hall := inStep_foldl (inStep_field hR hwrite m) (List.finRange n)
  -- the ids of a struct begin with it, and end
  have hfields : InStep R (fun s : Encoder W => ((List.finRange n).foldl
        (writeField h types write m) ({ s with message := h.name }, 0)).1)
      fun t : Encoder V => ((List.finRange n).foldl
        (writeField h types write' m) ({ t with message := h.name }, 0)).1 :=
    ⟨fun s hs => hall.left (_, 0) hs, fun t ht => hall.right (_, 0) ht, fun {s t} hst =>
      ⟨(hall.along (s := ({ s with message := h.name }, 0)) (t := ({ t with message := h.name }, 0))
        ⟨hst.view, fun _ _ => rfl⟩).view, fun _ _ => rfl⟩⟩
  have hstop : ∀ {X : Type} [Writer X] [LawfulWriter X] (e : Encoder X) (a b : String),
      (if (err e.w).isSome then e else ⟨u8 0 e.w, a, b⟩ : Encoder X).w = u8 0 e.w := by
    intro X _ _ e a b
    split
    · rename_i herr
      exact (stuck_u8 0 herr).symm
    · rfl
  exact (hfields.comp (inStep_u8 hR 0)).congr (fun _ => ⟨hstop _ _ _, fun _ => rfl⟩)
    fun _ => ⟨hstop _ _ _, fun _ => rfl⟩

end Ops

/-- **Two writers in step stay in step**, whatever is written. -/
theorem writeValue_sim [LawfulWriter W] [LawfulWriter V] (hR : Sim R) (T : Ty) (v : T.Value) :
    InStep R (writeValue (W := W) T v) (writeValue (W := V) T v) := by
  induction T with
  | bool | i8 | emptyStruct => exact inStep_u8 hR _
  | i16 | i32 | i64 | enum => exact inStep_varint hR _
  | dbl => exact inStep_raw hR _
  | binary => exact inStep_binary hR v
  | vector E ih => exact (inStep_listHeader hR _ _).comp (inStep_foldl ih v)
  | list E ih =>
    cases v with
    | of xs => exact (inStep_listHeader hR _ _).comp (inStep_foldl ih xs)
    | wire region count elemWire left =>
      exact (inStep_listHeader hR _ _).comp (inStep_raw hR region)
  | lazy n h types ih =>
    cases v with
    | of m => exact inStep_struct hR ih m
    | wire region left =>
      by_cases hne : region ≠ []
      · exact (inStep_raw hR region).congr
          (fun _ => ⟨congrArg Encoder.w (if_pos hne), fun _ => rfl⟩)
          fun _ => ⟨congrArg Encoder.w (if_pos hne), fun _ => rfl⟩
      · exact (inStep_on (stuck_fail _) (stuck_fail _) (hR.fail _)).congr
          (fun _ => ⟨congrArg Encoder.w (if_neg hne), fun _ => rfl⟩)
          fun _ => ⟨congrArg Encoder.w (if_neg hne), fun _ => rfl⟩
  | message n h types ih => exact inStep_struct hR ih v

end Step

/-! ## What a sink gets -/

section Encode

variable {n : ℕ} (h : Head n) (types : Fin n → Ty) (m : Fields h types)

/-- **What there is to write** for a message. -/
def encoding : Direct := (writeTo h types m (⟨[], none⟩ : Direct)).w

theorem writeTo_sim {W V : Type} [Writer W] [LawfulWriter W] [Writer V] [LawfulWriter V]
    {R : W → V → Prop} (hR : Sim R) {w : W} {v : V} (hwv : R w v) :
    R (writeTo h types m w).w (writeTo h types m v).w :=
  ((writeValue_sim hR (.message n h types) m).along (s := ⟨w, "", ""⟩) (t := ⟨v, "", ""⟩)
    ⟨hwv, fun _ _ => rfl⟩).view

theorem given_encode {S : Type} [ByteSink S] (s : S) :
    Given s (encoding h types m) (writeTo h types m (Stage.start s)).w.flush
      (writeTo h types m (Stage.start (⟨s, []⟩ : Logged S))).w.flush.sink :=
  given_of_tracks (writeTo_sim h types m sim_recorded (recorded_start s))
    (writeTo_sim h types m sim_tracks (tracks_start s))

theorem thriftCompactEncode_of_none {S : Type} [ByteSink S] {s : S}
    (herr : (writeTo h types m (Stage.start s)).w.flush.err = none) :
    thriftCompactEncode h types m s = ((writeTo h types m (Stage.start s)).w.flush.sink,
      .ok (writeTo h types m (Stage.start s)).w.flush.total) := by
  rw [thriftCompactEncode, herr]

theorem thriftCompactEncode_vector {bytes : Bytes} (hm : encoding h types m = ⟨bytes, none⟩)
    (out : Bytes) : thriftCompactEncode h types m (⟨out⟩ : VectorSink)
      = (⟨out ++ bytes⟩, .ok bytes.length) := by
  have hgiven := given_encode h types m (⟨out⟩ : VectorSink)
  obtain ⟨hsink, htaken⟩ := hgiven.replay.vector
  have herr := hgiven.taken htaken
  rw [hm] at herr hgiven
  obtain ⟨-, -, hblocks, htotal⟩ := hgiven.done herr
  rw [thriftCompactEncode_of_none h types m herr, ← hgiven.sink, hsink, hblocks, htotal]

end Encode

end Nanom.Tagged
