import Nanom.Common.Bytes

/-!
# Protobuf — models and values

A message model is a type here, as in C++, and its messages are the values of that
type. What the compiler checks of a model is in `Head` and in the kinds of its
fields; `checkModel` is what is left for `check_model`.

A field is single, optional (`std::optional` or `pb_box`) or repeated. A model that
contains itself stands for its unfolding, of which no more than the depth limit is
ever read or written at once.
-/

namespace Nanom.Proto

def maxTaggedDepth : ℕ := 64

/-- The integers a member or an enum can be. -/
inductive Width
  | w8 | w16 | w32 | w64
  deriving DecidableEq

def Width.bits : Width → ℕ
  | w8 => 8
  | w16 => 16
  | w32 => 32
  | w64 => 64

/-- The bits of a `pb_sint`, a `pb_fixed`, a `float` or a `double`. -/
def bitsOf (wide : Bool) : ℕ := if wide then 64 else 32

/-- The member types that are scalars. An enum has the integer it is backed
by. -/
inductive Scalar
  | bool
  | int (signed : Bool) (w : Width)
  | enum (signed : Bool) (w : Width)
  | sint (wide : Bool)
  | fixed (wide : Bool)
  | float (wide : Bool)
  deriving DecidableEq

/-- `wire`. -/
inductive WireType
  | varint | i64 | len | i32
  deriving DecidableEq

def WireType.code : WireType → ℕ
  | varint => 0
  | i64 => 1
  | len => 2
  | i32 => 5

def WireType.ofCode : ℕ → Option WireType
  | 0 => some varint
  | 1 => some i64
  | 2 => some len
  | 5 => some i32
  | _ => none

theorem WireType.code_lt (w : WireType) : w.code < 8 := by cases w <;> decide

namespace Scalar

/-- The values of a scalar: those of a floating-point number are its bits. -/
@[reducible] def Value : Scalar → Type
  | bool => Bool
  | int _ w => BitVec w.bits
  | enum _ w => BitVec w.bits
  | sint wide => BitVec (bitsOf wide)
  | fixed wide => BitVec (bitsOf wide)
  | float wide => BitVec (bitsOf wide)

instance : (s : Scalar) → DecidableEq s.Value
  | bool => inferInstanceAs (DecidableEq Bool)
  | int _ w | enum _ w => inferInstanceAs (DecidableEq (BitVec w.bits))
  | sint wide | fixed wide | float wide => inferInstanceAs (DecidableEq (BitVec (bitsOf wide)))

/-- `T{}`. -/
def init : (s : Scalar) → s.Value
  | bool => false
  | int _ w => 0#w.bits
  | enum _ w => 0#w.bits
  | sint wide => 0#(bitsOf wide)
  | fixed wide => 0#(bitsOf wide)
  | float wide => 0#(bitsOf wide)

/-- `wire_of`. -/
def wire : Scalar → WireType
  | bool => .varint
  | int _ _ => .varint
  | enum _ _ => .varint
  | sint _ => .varint
  | fixed wide => if wide then .i64 else .i32
  | float wide => if wide then .i64 else .i32

theorem wire_cases (s : Scalar) : s.wire = .varint ∨ s.wire = .i32 ∨ s.wire = .i64 := by
  cases s with
  | fixed wide | float wide => cases wide <;> decide
  | _ => exact .inl rfl

end Scalar

/-- How a field can be there. -/
inductive Kind
  | required | defaulted | optional | repeated
  deriving DecidableEq

/-- A member of some type, by the kind of its field. -/
@[reducible] def Slot : Kind → Type → Type
  | .required, V => V
  | .defaulted, V => V
  | .optional, V => Option V
  | .repeated, V => List V

namespace Slot

variable {V : Type}

/-- A member as it is before anything is read. -/
def initial (init : V) : (k : Kind) → Slot k V
  | .required => init
  | .defaulted => init
  | .optional => none
  | .repeated => ([] : List V)

/-- What an occurrence is read into. -/
def target (init : V) : {k : Kind} → Slot k V → V
  | .required, v => v
  | .defaulted, v => v
  | .optional, v => Option.getD v init
  | .repeated, _ => init

/-- The member, with what was read. -/
def store : {k : Kind} → Slot k V → V → Slot k V
  | .required, _, v => v
  | .defaulted, _, v => v
  | .optional, _, v => some v
  | .repeated, vs, v => List.concat vs v

end Slot

/-- The bytes of a `pb_unknown`, in a model that has one. -/
def Unknown : Bool → Type
  | true => Bytes
  | false => Unit

namespace Unknown

def bytes : {u : Bool} → Unknown u → Bytes
  | true, b => b
  | false, _ => []

/-- `keep_unknown`, where there is a place for it. -/
def keep : {u : Bool} → Unknown u → Bytes → Unknown u
  | true, b, p => List.append b p
  | false, _, _ => ()

def none : (u : Bool) → Unknown u
  | true => ([] : Bytes)
  | false => ()

@[simp] theorem bytes_none (u : Bool) : (none u).bytes = [] := by cases u <;> rfl

end Unknown

/-- What is known of a message of `n` fields at compile time: `message_info`
with its static assertions, the names, and whether there is a `pb_unknown`. -/
structure Head (n : ℕ) where
  name : String
  field : Fin n → String
  id : Fin n → ℕ
  kind : Fin n → Kind
  unknown : Bool
  fields_le : n + (if unknown then 1 else 0) ≤ 64
  id_pos : ∀ k, 1 ≤ id k
  id_le : ∀ k, id k ≤ 32767
  ascending : ∀ j k, j < k → id j < id k

theorem Head.one_fields_le : ∀ unknown : Bool, 1 + (if unknown then 1 else 0) ≤ 64 := by decide

theorem Head.one_id_pos (_ : Fin 1) : 1 ≤ 1 := Nat.le_refl 1

theorem Head.one_id_le (_ : Fin 1) : 1 ≤ 32767 := by decide

theorem Head.one_ascending (j k : Fin 1) (hlt : j < k) : 1 < 1 := absurd hlt (by omega)

/-- A message type of one member, which has the id 1. -/
def Head.one (name field : String) (kind : Kind) (unknown : Bool) : Head 1 where
  name := name
  field _ := field
  id _ := 1
  kind _ := kind
  unknown := unknown
  fields_le := one_fields_le unknown
  id_pos := one_id_pos
  id_le := one_id_le
  ascending := one_ascending

/-- A message. -/
structure Message {n : ℕ} (h : Head n) (V : Fin n → Type) where
  unknown : Unknown h.unknown
  members : (k : Fin n) → Slot (h.kind k) (V k)

/-- The types of members, or of the elements of a repeated one. A
`std::string_view`, a `std::string` and `bytes` are all `binary`. -/
inductive Ty
  | scalar (s : Scalar)
  | binary
  | emptyStruct
  | message (n : ℕ) (h : Head n) (types : Fin n → Ty)
  | lazy (n : ℕ) (h : Head n) (types : Fin n → Ty)

/-- `pb_lazy<M>`: nothing, the caller's message, or bytes that were read. -/
inductive LazyValue (V : Type)
  | none
  | of (m : V)
  | region (b : Bytes)

namespace LazyValue

variable {V : Type}

def hasValue : LazyValue V → Bool
  | none => false
  | of _ => true
  | region _ => true

end LazyValue

namespace Ty

/-- The values of a type. -/
@[reducible] def Value : Ty → Type
  | scalar s => s.Value
  | binary => Bytes
  | emptyStruct => Unit
  | message _ h types => Message h fun k => (types k).Value
  | lazy _ h types => LazyValue (Message h fun k => (types k).Value)

/-- `T{}`. -/
def init : (T : Ty) → T.Value
  | scalar s => s.init
  | binary => ([] : Bytes)
  | emptyStruct => ()
  | message _ h types => ⟨Unknown.none h.unknown, fun k => Slot.initial (types k).init (h.kind k)⟩
  | lazy _ _ _ => LazyValue.none

/-- `wire_of`. -/
def wire : Ty → WireType
  | scalar s => s.wire
  | _ => .len

/-- `is_lazy_pb`. -/
def isLazy : Ty → Bool
  | lazy _ _ _ => true
  | _ => false

/-- `check_model`, of a message and all those in it: a `pb_lazy` is not
required. -/
def checkModel : Ty → Prop
  | message _ h types =>
    ∀ k, (h.kind k = .required → (types k).isLazy = false) ∧ (types k).checkModel
  | lazy _ h types =>
    ∀ k, (h.kind k = .required → (types k).isLazy = false) ∧ (types k).checkModel
  | _ => True

end Ty

/-- The values of a message's members. -/
abbrev Fields {n : ℕ} (h : Head n) (types : Fin n → Ty) : Type := Message h fun k => (types k).Value

end Nanom.Proto
