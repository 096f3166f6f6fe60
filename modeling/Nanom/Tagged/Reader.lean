import Mathlib.Algebra.Group.Int.Defs
import Nanom.Common.Parsing
import Nanom.Tagged.Schema
import Nanom.Wire.Varint

/-!
# Thrift compact — reading

The decoder runs on the bytes between its cursor and the end of the input, so a
parser here is a function of those bytes. A fault is recorded with the number of
bytes left where it happened.

The depth is counted down: `left` is `max_tagged_depth + 1 - depth`, the levels
there still are; without one a struct, a list or a map is too deep. `skip` recurses
over the levels, `readValue` over the type.
-/

namespace Nanom.Tagged

def maxIncompleteNeeded : ℕ := 64 * 1024

inductive Fault
  | truncated | badVarint | outOfRange | badType | typeMismatch | tooDeep | badCount | badBool
  | badId | missingRequired
  deriving DecidableEq

/-- What was expected, in the words of `to_error`. -/
def Fault.expected : Fault → String
  | truncated => "more input"
  | badVarint => "varint fitting the target width"
  | outOfRange => "integer within the member's range"
  | badType => "a valid thrift compact type"
  | typeMismatch => "thrift wire type matching the member's type"
  | tooDeep => "thrift nesting within the depth limit"
  | badCount => "thrift list/map count that fits the remaining bytes"
  | badBool => "thrift bool element (0, 1 or 2)"
  | badId => "thrift field id within i16"
  | missingRequired => "every required thrift field"

/-- `ctx`, once something has failed: the fault, the bytes left there, the
bytes known to be missing, and the message for a required field. -/
structure Failure where
  fault : Fault
  left : ℕ
  need : ℕ
  message : Option String
  deriving DecidableEq

/-- How a parser can stop: with a failure, by leaving its input, or by
running out of fuel. -/
inductive Stop
  | failed (f : Failure)
  | undefined
  | unfinished
  deriving DecidableEq

/-- A Thrift parser. -/
abbrev Read (α : Type) : Type := Parser Stop α

section Faults

variable {α : Type}

/-- `ctx::fail` at the bytes given. -/
def fail (f : Fault) (at' : Bytes) : Except Stop α := .error (.failed ⟨f, at'.length, 0, none⟩)

/-- The input has ended, with so many bytes missing. -/
def truncated (needed : ℕ) : Except Stop α :=
  .error (.failed ⟨.truncated, 0, min needed maxIncompleteNeeded, none⟩)

end Faults

/-- `p += n`. -/
def advance (n : ℕ) : Read Unit := fun b =>
  if n ≤ b.length then .ok ((), b.drop n) else .error .undefined

/-- One byte. -/
def byte : Read UInt8
  | [] => truncated 1
  | c :: b => .ok (c, b)

/-- The next `n` bytes. -/
def span (n : ℕ) : Read Bytes :=
  Parser.chunk (fun b => .failed ⟨.truncated, 0, min (n - b.length) maxIncompleteNeeded, none⟩) n

/-! ## Varints -/

/-- The loop of `varint` from byte `i` on: `start` is where the varint
starts, `r` what was read, and `ended` what happens at the end. -/
def varintLoop (ended : Stop) (start : Bytes) : ℕ → ℕ → Read ℕ
  | _, _, [] => .error ended
  | i, r, c :: b =>
    let r := r ||| u64 ((c.toNat &&& 0x7f) <<< (7 * i))
    if c.toNat < 0x80 then
      if i = 9 ∧ 1 < c.toNat then fail .badVarint start else .ok (r, b)
    else if i + 1 < 10 then varintLoop ended start (i + 1) r b
    else fail .badVarint start

/-- `varint`: with ten bytes left none of them is checked for. -/
def varint : Read ℕ := fun b =>
  if 10 ≤ b.length then
    match b with
    | [] => .error .undefined
    | c :: b' =>
      if c.toNat < 0x80 then .ok (c.toNat, b')
      else varintLoop .undefined b 1 (c.toNat &&& 0x7f) b'
  else varintLoop (.failed ⟨.truncated, 0, 1, none⟩) b 0 0 b

/-- The loop of `skip_varint` over the bytes up to `lim`. -/
def skipVarintLoop (start : Bytes) : ℕ → Read Unit
  | _, [] => if start.length < 10 then truncated 1 else fail .badVarint start
  | i, c :: b =>
    if 10 ≤ i then fail .badVarint start
    else if c.toNat < 0x80 then
      if i = 9 ∧ 1 < c.toNat then fail .badVarint start else .ok ((), b)
    else skipVarintLoop start (i + 1) b

def skipVarint : Read Unit := fun b => skipVarintLoop b 0 b

def varint32 : Read ℕ := fun b => do
  let (w, rest) ← varint b
  if 0xffffffff < w then fail .badVarint b else .ok (w, rest)

/-- `zigzag<S>`, for the signed integers of a width. -/
def zigzag (bits : ℕ) : Read (BitVec bits) := fun b => do
  let (w, rest) ← varint b
  let d := (Wire.zigzagDecode (BitVec.ofNat 64 w)).toInt
  if d < -2 ^ (bits - 1) ∨ 2 ^ (bits - 1) - 1 < d then fail .outOfRange b
  else .ok (BitVec.ofInt bits d, rest)

/-- A length and that many bytes. -/
def binary : Read Bytes := fun b => do
  let (n, b) ← varint32 b
  span n b

/-! ## Types on the wire -/

def wireOk (expected : CType) (wire : ℕ) : Bool :=
  if expected = .boolTrue then wire == CType.code .boolTrue || wire == CType.code .boolFalse
  else if expected = .list then wire == CType.code .list || wire == CType.code .set
  else wire == expected.code

def minElemBytes (type : ℕ) : ℕ := if type = CType.code .dbl then 8 else 1

structure ListHeader where
  count : ℕ
  elem : ℕ

/-- The count of a list, behind its first byte. -/
def listCount (c : UInt8) : Read ℕ := fun b =>
  if c.toNat >>> 4 = 15 then varint32 b else .ok (c.toNat >>> 4, b)

def readListHeader : Read ListHeader := fun s => do
  let (c, b) ← byte s
  let elem := c.toNat &&& 0x0f
  let (count, b) ← listCount c b
  if b.length / minElemBytes elem < count then fail .badCount s else .ok (⟨count, elem⟩, b)

/-! ## Skipping -/

/-- `skip_elems`, where `deeper` skips an element one level down. -/
def skipElems (deeper : ℕ → Bool → Read Unit) (h : ListHeader) : Read Unit :=
  match CType.ofCode h.elem with
  | some .boolTrue | some .boolFalse | some .i8 => advance h.count
  | some .dbl => advance (h.count * 8)
  | some .i16 | some .i32 | some .i64 => Parser.discard (Parser.times skipVarint h.count)
  | _ => Parser.discard (Parser.times (deeper h.elem true) h.count)

/-- The id of a field that has it in full. -/
def skipId (h : UInt8) : Read Unit := fun b =>
  if h.toNat >>> 4 = 0 then skipVarint b else .ok ((), b)

/-- The value of a field in `skip_struct`: what is not nested is skipped
on the spot. -/
def skipInline (deeper : ℕ → Bool → Read Unit) (type : ℕ) : Read Unit :=
  match CType.ofCode type with
  | some .boolTrue | some .boolFalse => fun b => .ok ((), b)
  | some .i8 => Parser.discard byte
  | some .i16 | some .i32 | some .i64 => skipVarint
  | some .binary => Parser.discard binary
  | _ => deeper type false

/-- One field of `skip_struct`, behind its first byte. -/
def skipField (deeper : ℕ → Bool → Read Unit) (_ : Unit) (h : UInt8) : Read Unit := fun b => do
  let (_, b) ← skipId h b
  skipInline deeper (h.toNat &&& 0x0f) b

/-- `skip_struct` with so many levels left, where `deeper` skips a value in
a field. -/
def skipStructWith (left : ℕ) (deeper : ℕ → Bool → Read Unit) : Read Unit := fun b =>
  if left = 0 then fail .tooDeep b
  else
    Parser.loop (skipField deeper) (.failed ⟨.truncated, 0, 1, none⟩) .unfinished () b

/-- The key and the value of a map. -/
def skipPair (deeper : ℕ → Bool → Read Unit) (kt vt : ℕ) : Read Unit := fun b => do
  let (_, b) ← deeper kt true b
  deeper vt true b

/-- The map of `skip`. -/
def skipMap (deeper : ℕ → Bool → Read Unit) : Read Unit := fun s => do
  let (n, b) ← varint32 s
  if n = 0 then .ok ((), b)
  else do
    let (kv, b) ← byte b
    let kt := kv.toNat >>> 4
    let vt := kv.toNat &&& 0x0f
    if b.length / (minElemBytes kt + minElemBytes vt) < n then fail .badCount s
    else Parser.discard (Parser.times (skipPair deeper kt vt) n) b

/-- `skip`, where `nested` takes the lists, maps and structs. -/
def skipWith (nested : CType → Read Unit) (type : ℕ) (inContainer : Bool) : Read Unit :=
  match CType.ofCode type with
  | some .boolTrue | some .boolFalse =>
    if inContainer then Parser.discard byte else fun b => .ok ((), b)
  | some .i8 => Parser.discard byte
  | some .i16 | some .i32 | some .i64 => skipVarint
  | some .dbl => Parser.discard (span 8)
  | some .binary => Parser.discard binary
  | some .list => nested .list
  | some .set => nested .set
  | some .map => nested .map
  | some .strct => nested .strct
  | some .stop | none => fail .badType

/-- What is nested, with `left` levels below it. -/
def skipNested (left : ℕ) (deeper : ℕ → Bool → Read Unit) : CType → Read Unit
  | .map => skipMap deeper
  | .strct => skipStructWith left deeper
  | _ => fun b => do
      let (h, b) ← readListHeader b
      skipElems deeper h b

def skip : ℕ → ℕ → Bool → Read Unit
  | 0 => skipWith fun _ => fail .tooDeep
  | left + 1 => skipWith (skipNested left (skip left))

def skipStruct (left : ℕ) : Read Unit := skipStructWith left (skip left)

/-! ## Values -/

/-- A `bool` in a container. -/
def readBool : Read Bool := fun b => do
  let (c, rest) ← byte b
  if 2 < c.toNat then fail .badBool b else .ok (c.toNat = 1, rest)

/-- Eight bytes, lowest first. -/
def readDouble : Read (BitVec 64) := fun b => do
  let (u, b) ← span 8 b
  .ok (BitVec.ofNat 64 (leNat u), b)

/-- A list header whose elements are of the type expected, at a depth
that a list may have. -/
def readListOf (elem : CType) (left : ℕ) : Read ListHeader := fun s => do
  let (h, b) ← readListHeader s
  if h.count ≠ 0 ∧ wireOk elem h.elem = false then fail .typeMismatch s
  else if left = 0 then fail .tooDeep s
  else .ok (h, b)

/-- The state of the loop of `read_struct`: the last id, the slots that
were seen, and what was read. -/
structure Scan (n : ℕ) (σ : Type) where
  last : ℤ
  seen : Fin n → Bool
  value : σ

section Struct

variable {n : ℕ} {σ : Type}

def Head.slotOf (h : Head n) (id : ℤ) : Option (Fin n) :=
  (List.finRange n).find? fun k => (h.id k : ℤ) = id

/-- No required field is missing. -/
def Head.complete (h : Head n) (seen : Fin n → Bool) : Bool :=
  decide (∀ k, h.kind k = .required → seen k = true)

/-- The id of a field, behind its first byte. -/
def fieldId (last : ℤ) (hb : UInt8) : Read ℤ := fun b =>
  let delta := hb.toNat >>> 4
  if delta = 0 then do
    let (id, b) ← zigzag 16 b
    .ok (id.toInt, b)
  else if 32767 < last + delta then fail .badId (hb :: b)
  else .ok (last + delta, b)

/-- One field of `read_struct`, behind its first byte: `member` reads the
member of a slot. -/
def structField (h : Head n) (wire : Fin n → CType) (left : ℕ)
    (member : Fin n → ℕ → σ → Read σ) (s : Scan n σ) (hb : UInt8) : Read (Scan n σ) := fun b => do
  let type := hb.toNat &&& 0x0f
  let (last, b) ← fieldId s.last hb b
  match h.slotOf last with
  | none => do
      let (_, b) ← skip left type false b
      .ok (⟨last, s.seen, s.value⟩, b)
  | some k =>
    if wireOk (wire k) type then do
      let (value, b) ← member k type s.value b
      .ok (⟨last, Function.update s.seen k true, value⟩, b)
    else do
      let (_, b) ← skip left type false b
      .ok (⟨last, s.seen, s.value⟩, b)

/-- `read_struct`, over the reader of its members. -/
def structWith (h : Head n) (wire : Fin n → CType) (left : ℕ)
    (member : Fin n → ℕ → σ → Read σ) (m : σ) : Read σ := fun start =>
  if left = 0 then fail .tooDeep start
  else do
    let (s, b) ← Parser.loop (structField h wire left member)
      (.failed ⟨.truncated, 0, 1, none⟩) .unfinished ⟨0, fun _ => false, m⟩ start
    if h.complete s.seen then .ok (s.value, b)
    else .error (.failed ⟨.missingRequired, start.length, 0, some h.name⟩)

end Struct

/-- The member of a field: a `bool` is in the type, and everything else is
read into the value there is. -/
def readMember (T : Ty) (read : T.Value → Read T.Value) (type : ℕ) (out : T.Value) : Read T.Value :=
  match T, read, out with
  | .bool, _, _ => fun b => .ok ((decide (type = CType.code .boolTrue) : Bool), b)
  | _, read, out => read out

/-- The members of a message, each read by `read`. -/
def readMembers {n : ℕ} (h : Head n) (types : Fin n → Ty)
    (read : (k : Fin n) → (types k).Value → Read (types k).Value) (k : Fin n) (type : ℕ)
    (m : Fields h types) : Read (Fields h types) := fun b => do
  let (v, b) ← readMember (types k) (read k) type ((m k).getD (types k).init) b
  .ok (Function.update m k (Slot.put (h.kind k) v), b)

/-- `read_value`: `out` is what it reads into. -/
def readValue : (T : Ty) → (left : ℕ) → (out : T.Value) → Read T.Value
  | .bool, _, _ => readBool
  | .i8, _, _ => fun b => do
      let (c, b) ← byte b
      .ok (c.toBitVec, b)
  | .i16, _, _ => zigzag 16
  | .i32, _, _ => zigzag 32
  | .i64, _, _ => zigzag 64
  | .dbl, _, _ => readDouble
  | .enum, _, _ => zigzag 32
  | .binary, _, _ => binary
  | .vector E, left, _ => fun b => do
      let (h, b) ← readListOf E.typeOf left b
      Parser.times (readValue E (left - 1) E.init) h.count b
  | .list E, left, _ => fun b => do
      let (h, body) ← readListOf E.typeOf left b
      let (region, b) ← Parser.cut (skipElems (skip (left - 1)) h) body
      .ok ((.wire region h.count h.elem (left - 1) : ListValue E.Value), b)
  | .lazy _ _ _, left, _ => fun b => do
      let (region, b) ← Parser.cut (skipStruct (left - 1)) b
      .ok (.wire region (left - 1), b)
  | .emptyStruct, left, _ => skipStruct (left - 1)
  | .message _ h types, left, out =>
    structWith h (fun k => (types k).typeOf) (left - 1)
      (readMembers h types fun k => readValue (types k) (left - 1)) out

def readStruct {n : ℕ} (h : Head n) (types : Fin n → Ty) (left : ℕ) :
    Fields h types → Read (Fields h types) :=
  structWith h (fun k => (types k).typeOf) left
    (readMembers h types fun k => readValue (types k) left)

/-- `thrift_compact<M>`. -/
def thriftCompact {n : ℕ} (h : Head n) (types : Fin n → Ty) : Read (Fields h types) :=
  readStruct h types (maxTaggedDepth + 1) ((Ty.message n h types).init)

def thriftCompactSkip : Read Unit := skipStruct (maxTaggedDepth + 1)

/-! ## What was kept for later -/

section Later

variable {V σ : Type}

/-- Why an element is not to be had. -/
inductive ListError
  | notInRange
  | stopped (s : Stop)
  deriving DecidableEq

/-- What was expected of an index. -/
def ListError.expected : ListError → String
  | notInRange => "list index in range"
  | stopped (.failed f) => f.fault.expected
  | stopped _ => ""

/-- The loop of `for_each` over the bytes: the callback says whether to go
on. -/
def forEachFrom (read : Read V) (f : σ → V → σ × Bool) : ℕ → σ → Bytes → Except Stop σ
  | 0, s, _ => .ok s
  | k + 1, s, b => do
      let (v, b) ← read b
      let (s, more) := f s v
      if more then forEachFrom read f k s b else .ok s

/-- The loop of `for_each` over the caller's elements. -/
def forEachOf (f : σ → V → σ × Bool) : σ → List V → σ
  | s, [] => s
  | s, v :: vs =>
    let (s, more) := f s v
    if more then forEachOf f s vs else s

/-- `list<E>::for_each`, where `read` reads an element. -/
def ListValue.forEach (read : ℕ → Read V) (f : σ → V → σ × Bool) (s : σ) :
    ListValue V → Except Stop σ
  | .of elems => .ok (forEachOf f s elems)
  | .wire region count _ left => forEachFrom (read left) f count s region

def ListValue.toVector (read : ℕ → Read V) : ListValue V → Except Stop (List V)
  | .of elems => .ok elems
  | .wire region count elemWire left =>
    (ListValue.wire region count elemWire left).forEach read (fun out v => (out ++ [v], true)) []

def ListValue.at (read : ℕ → Read V) (i : ℕ) : ListValue V → Except ListError V
  | .of elems =>
    match elems[i]? with
    | none => .error .notInRange
    | some v => .ok v
  | .wire region count elemWire left =>
    if count ≤ i then .error .notInRange
    else do
      let (_, b) ← (Parser.times (skip left elemWire true) i region).mapError .stopped
      let (v, _) ← (read left b).mapError .stopped
      .ok v

def LazyValue.empty : LazyValue V → Bool
  | .of _ => false
  | .wire region _ => region.isEmpty

def LazyValue.decode (read : ℕ → Read V) : LazyValue V → Except Stop V
  | .of m => .ok m
  | .wire region left => do
      let (m, _) ← read left region
      .ok m

end Later

end Nanom.Tagged
