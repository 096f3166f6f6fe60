import Mathlib.Algebra.Group.Int.Defs
import Nanom.Common.Parsing
import Nanom.Proto.Schema
import Nanom.Wire.Varint

/-!
# Protobuf — reading

The decoder runs on the bytes between its cursor and the end of the message it is
in, so a parser here is a function of those bytes. A failure is recorded with the
number of bytes left where it happened; `within` adds those behind the message.

`readLen` recurses over the type, and `readMessageWith` is the loop over the
records of one message, a run of unpacked values in one round.
-/

namespace Nanom.Proto

/-- `ctx`, once something has failed: why, and the bytes left there. -/
structure Failure where
  why : String
  left : ℕ
  deriving DecidableEq

/-- How a parser can stop: with a failure, or by running out of fuel. -/
inductive Stop
  | failed (f : Failure)
  | unfinished
  deriving DecidableEq

/-- A protobuf parser. -/
abbrev Read (α : Type) : Type := Parser Stop α

section Faults

variable {α : Type}

/-- `ctx::fail` at the bytes given. -/
def fail (why : String) (at' : Bytes) : Except Stop α := .error (.failed ⟨why, at'.length⟩)

/-- A failure with more bytes behind it. -/
def Stop.before (k : ℕ) : Stop → Stop
  | failed f => failed ⟨f.why, f.left + k⟩
  | unfinished => unfinished

/-- What happens in a part of the input, with the rest of it behind. -/
def within (rest : Bytes) (r : Except Stop α) : Except Stop α :=
  r.mapError (Stop.before rest.length)

end Faults

/-! ## Bytes -/

/-- The loop of `read_varint_slow` from byte `i` on, with what was read. -/
def readVarintSlow : ℕ → ℕ → Read ℕ
  | i, _, [] =>
    if i < 10 then fail "a complete protobuf varint" []
    else fail "a protobuf varint of at most 10 bytes" []
  | i, v, c :: b =>
    if i < 10 then
      if i = 9 ∧ 1 < c.toNat then fail "a protobuf varint of at most 64 bits" (c :: b)
      else
        let v := v ||| u64 ((c.toNat &&& 0x7f) <<< (7 * i))
        if c.toNat &&& 0x80 = 0 then .ok (v, b) else readVarintSlow (i + 1) v b
    else fail "a protobuf varint of at most 10 bytes" (c :: b)

/-- `read_varint`: one byte is read on the spot. -/
def readVarint : Read ℕ
  | [] => readVarintSlow 0 0 []
  | c :: b => if c.toNat &&& 0x80 = 0 then .ok (c.toNat, b) else readVarintSlow 0 0 (c :: b)

/-- So many bytes. -/
def span (n : ℕ) (why : String) : Read Bytes := Parser.chunk (fun b => .failed ⟨why, b.length⟩) n

/-- A length, and that many bytes. -/
def delimited (why : String) : Read Bytes := fun b => do
  let (n, b) ← readVarint b
  span n why b

/-- What is expected of a length. -/
def fitting : String := "a length-delimited field that fits the message"

def skipValue (wt : ℕ) : Read Unit :=
  match WireType.ofCode wt with
  | some .varint => Parser.discard readVarint
  | some .i64 => Parser.discard (span 8 "8 bytes of a fixed64 field")
  | some .i32 => Parser.discard (span 4 "4 bytes of a fixed32 field")
  | some .len => Parser.discard (delimited fitting)
  | none => fail "a protobuf wire type 0, 1, 2 or 5 (groups are not supported)"

/-! ## Scalars -/

/-- `std::in_range`, of the signed integers of a width. -/
def inRange (bits : ℕ) (s : ℤ) : Prop := -2 ^ (bits - 1) ≤ s ∧ s ≤ 2 ^ (bits - 1) - 1

instance (bits : ℕ) (s : ℤ) : Decidable (inRange bits s) := inferInstanceAs (Decidable (_ ∧ _))

/-- A varint that is checked, and failed behind, unless it fits. -/
def checked {α : Type} (why : String) (f : ℕ → Option α) : Read α := fun b => do
  let (v, b) ← readVarint b
  match f v with
  | some x => .ok (x, b)
  | none => fail why b

/-- A signed integer, as it stands in a varint. -/
def signedOf (v : ℕ) : ℤ := (BitVec.ofNat 64 v).toInt

namespace Scalar

/-- What is expected of a scalar. -/
def expected : Scalar → String
  | bool => "a bool of 0 or 1"
  | int _ _ => "an integer that fits the member"
  | enum _ _ => "an enum value that fits int32"
  | sint _ => "a sint value that fits the member"
  | fixed _ => "the bytes of a fixed field"
  | float _ => "the bytes of a floating-point field"

/-- The value a varint stands for, if it fits the member. An enum takes any
`int32`, as its own integer has it. -/
def ofVarint : (s : Scalar) → ℕ → Option s.Value
  | bool, v => if 1 < v then none else some (decide (v ≠ 0))
  | int true w, v =>
    if inRange w.bits (signedOf v) then some (BitVec.ofInt w.bits (signedOf v)) else none
  | int false w, v => if v < 2 ^ w.bits then some (BitVec.ofNat w.bits v) else none
  | enum _ w, v => if inRange 32 (signedOf v) then some (BitVec.ofInt w.bits (signedOf v)) else none
  | sint wide, v =>
    let s := (Wire.zigzagDecode (BitVec.ofNat 64 v)).toInt
    if inRange (bitsOf wide) s then some (BitVec.ofInt (bitsOf wide) s) else none
  | fixed _, _ => none
  | float _, _ => none

/-- The value some bits stand for. -/
def ofBits : (s : Scalar) → ℕ → s.Value
  | fixed wide, u => BitVec.ofNat (bitsOf wide) u
  | float wide, u => BitVec.ofNat (bitsOf wide) u
  | s, _ => s.init

/-- The bytes of a scalar of fixed width. -/
def width (s : Scalar) : ℕ := if s.wire = .i32 then 4 else 8

end Scalar

def readScalar (s : Scalar) : Read s.Value :=
  if s.wire = .varint then checked s.expected s.ofVarint
  else fun b => do
    let (u, b) ← span s.width s.expected b
    .ok (s.ofBits (leNat u), b)

/-- One more value, at the end of those there are. -/
def pushScalar (s : Scalar) (xs : List s.Value) : Read (List s.Value) := fun b => do
  let (x, b) ← readScalar s b
  .ok (xs ++ [x], b)

/-- The run of `read_field`: values behind the same key as the first. A key
of one byte and a longer one are compared alike. -/
def readRun (s : Scalar) (key : Bytes) : ℕ → List s.Value → Read (List s.Value)
  | fuel, xs, b =>
    if key.length < b.length ∧ key.isPrefixOf b then
      match fuel with
      | 0 => .error .unfinished
      | fuel + 1 => do
          let (xs, b) ← pushScalar s xs (b.drop key.length)
          readRun s key fuel xs b
    else .ok (xs, b)

/-- An unpacked value, and the run it starts. -/
def readUnpacked (s : Scalar) (key : Bytes) (xs : List s.Value) : Read (List s.Value) := fun b => do
  let (xs, b) ← pushScalar s xs b
  readRun s key b.length xs b

/-- What the length of a packed run is divided by. -/
def packedWidth (s : Scalar) : ℕ := if s.wire = .varint then 1 else s.width

/-- A packed run. -/
def readPacked (s : Scalar) (xs : List s.Value) : Read (List s.Value) := fun b => do
  let (region, rest) ← delimited "a packed field that fits the message" b
  if region.length % packedWidth s ≠ 0 then
    fail "a packed fixed-width field of whole values" (region ++ rest)
  else do
    let xs ← within rest (Parser.toEnd (pushScalar s) .unfinished xs region)
    .ok (xs, rest)

/-! ## Messages -/

/-- A record of an `empty_struct`. -/
def skipRecord : Read Unit := fun b => do
  let (key, b) ← readVarint b
  if key >>> 3 = 0 then fail "a protobuf field number of 1 .. 2^29-1" b
  else skipValue (key &&& 7) b

/-- A length-delimited value, which `read` reads from its bytes. What is
kept for later is refused where there is something already. -/
def readDelimited {V : Type} (read : V → Bytes → Except Stop V) (occupied : V → Bool) (out : V) :
    Read V := fun b => do
  let (region, rest) ← delimited fitting b
  if occupied out then fail "a lazily decoded message field that occurs once" (region ++ rest)
  else do
    let v ← within rest (read out region)
    .ok (v, rest)

/-- Whether a member is a `pb_lazy` that has a value. -/
def Ty.occupied : (T : Ty) → Kind → T.Value → Bool
  | .lazy _ _ _, .required, l => LazyValue.hasValue l
  | .lazy _ _ _, .defaulted, l => LazyValue.hasValue l
  | _, _, _ => false

/-- One value of its wire type. -/
def readOne (T : Ty) (k : Kind) (read : T.Value → Bytes → Except Stop T.Value) (out : T.Value) :
    Read T.Value :=
  match T, read, out with
  | .scalar s, _, _ => readScalar s
  | T, read, out => readDelimited read (T.occupied k) out

/-- One occurrence of a field, read into its member. -/
def readInto (T : Ty) (k : Kind) (read : T.Value → Bytes → Except Stop T.Value)
    (slot : Slot k T.Value) : Read (Slot k T.Value) := fun b => do
  let (v, b) ← readOne T k read (slot.target T.init) b
  .ok (slot.store v, b)

/-- What a field of another wire type is: skipped, with nothing read. -/
def skipField {α : Type} (wt : ℕ) : Read (Option α) := fun b => do
  let (_, b) ← skipValue wt b
  .ok (none, b)

/-- What is read of a field whose wire type matches. -/
def matched {α : Type} (p : Read α) : Read (Option α) := fun b => do
  let (a, b) ← p b
  .ok (some a, b)

/-- `read_field`: the member, unless the wire type is another. -/
def readField (T : Ty) (k : Kind) (read : T.Value → Bytes → Except Stop T.Value) (wt : ℕ)
    (key : Bytes) (slot : Slot k T.Value) : Read (Option (Slot k T.Value)) :=
  match T, k, read, slot with
  | .scalar s, .repeated, _, xs =>
    if wt = s.wire.code then matched (readUnpacked s key xs)
    else if wt = WireType.code .len then matched (readPacked s xs)
    else skipField wt
  | T, k, read, slot =>
    if wt = T.wire.code then matched (readInto T k read slot) else skipField wt

/-- The state of the loop of `read_message`: the slots that were seen, and
what was read. -/
structure Scan {n : ℕ} (h : Head n) (V : Fin n → Type) where
  seen : Fin n → Bool
  value : Message h V

section Message

variable {n : ℕ}

/-- `slot_of`, of the ids a field can have. -/
def Head.slotOf (h : Head n) (id : ℕ) : Option (Fin n) :=
  if 32767 < id then none else (List.finRange n).find? fun k => h.id k = id

/-- No required field is missing. -/
def Head.complete (h : Head n) (seen : Fin n → Bool) : Bool :=
  decide (∀ k, h.kind k = .required → seen k = true)

variable {h : Head n} {V : Fin n → Type}

/-- `keep_unknown`. -/
def Scan.keep (s : Scan h V) (p : Bytes) : Scan h V :=
  ⟨s.seen, ⟨s.value.unknown.keep p, s.value.members⟩⟩

/-- A field that was read. -/
def Scan.put (s : Scan h V) (k : Fin n) (v : Slot (h.kind k) (V k)) : Scan h V :=
  ⟨Function.update s.seen k true, ⟨s.value.unknown, Function.update s.value.members k v⟩⟩

/-- The bytes in front of what is left of them. -/
def taken (b rest : Bytes) : Bytes := b.take (b.length - rest.length)

/-- How the members are read, each into the value there is. -/
abbrev Readers (types : Fin n → Ty) : Type :=
  (k : Fin n) → (types k).Value → Bytes → Except Stop (types k).Value

/-- One round of `read_message`, where `read` reads a member. -/
def readRecord (h : Head n) (types : Fin n → Ty) (read : Readers types)
    (s : Scan h fun k => (types k).Value) : Read (Scan h fun k => (types k).Value) := fun b => do
  let (key, p) ← readVarint b
  let id := key >>> 3
  let wt := key &&& 7
  if id = 0 ∨ 536870911 < id then fail "a protobuf field number of 1 .. 2^29-1" b
  else
    match h.slotOf id with
    | none => do
        let (_, rest) ← skipValue wt p
        .ok (s.keep (taken b rest), rest)
    | some k => do
        let (r, rest) ← readField (types k) (h.kind k) (read k) wt (taken b p) (s.value.members k) p
        match r with
        | some v => .ok (s.put k v, rest)
        | none => .ok (s.keep (taken b rest), rest)

/-- `read_message`, over the reader of its members. -/
def readMessageWith (h : Head n) (types : Fin n → Ty) (read : Readers types)
    (m : Fields h types) (b : Bytes) : Except Stop (Fields h types) := do
  let s ← Parser.toEnd (readRecord h types read) .unfinished ⟨fun _ => false, m⟩ b
  if h.complete s.seen then .ok s.value else fail "a protobuf message with every required field" []

end Message

/-- `read_len`: `out` is what it reads into. -/
def readLen : (T : Ty) → (depth : ℕ) → (out : T.Value) → Bytes → Except Stop T.Value
  | .scalar _, _, _, b => fail "nanom protobuf: not length-delimited" b
  | .binary, _, _, b => .ok b
  | .message _ h types, depth, out, b =>
    if maxTaggedDepth ≤ depth then fail "protobuf nesting within the depth limit" b
    else readMessageWith h types (fun k => readLen (types k) (depth + 1)) out b
  | .lazy _ _ _, _, _, b => .ok (.region b)
  | .emptyStruct, _, _, b => Parser.toEnd (fun _ => skipRecord) .unfinished () b

section Parsers

variable {n : ℕ} (h : Head n) (types : Fin n → Ty)

def readMessage (depth : ℕ) (m : Fields h types) (b : Bytes) : Except Stop (Fields h types) :=
  readMessageWith h types (fun k => readLen (types k) depth) m b

/-- `protobuf_decode`: what `m` is then. -/
def protobufDecode (m : Fields h types) (b : Bytes) : Except Stop (Fields h types) :=
  readMessage h types 0 m b

/-- `protobuf<M>`: the whole input is one message. -/
def protobuf : Read (Fields h types) := fun b => do
  let m ← readMessage h types 0 (Ty.init (.message n h types)) b
  .ok (m, [])

end Parsers

def LazyValue.decode {n : ℕ} (h : Head n) (types : Fin n → Ty) :
    LazyValue (Fields h types) →
      Except Stop (Fields h types)
  | none => protobufDecode h types (Ty.init (.message n h types)) []
  | of m => .ok m
  | region b => protobufDecode h types (Ty.init (.message n h types)) b

end Nanom.Proto
