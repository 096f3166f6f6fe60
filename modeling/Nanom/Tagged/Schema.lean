import Nanom.Common.Bytes

/-!
# Tagged messages — models and values

A message is a struct whose members are all `field<Id, T>`: the wire id,
the type and what an absent field means are in the type. `Head` is what a
message knows about its fields at compile time, with what the static
assertions of `message_info` promise, and `Ty` are the member types of the
Thrift codec. `Value T` is a C++ value of such a type.

The models are finite trees. A message that refers to itself, which it can
do through a vector, a list or a lazy message only, is covered by as much of
its unfolding as the depth limit lets through.
-/

namespace Nanom.Tagged

def maxTaggedDepth : ℕ := 64

inductive CType
  | stop | boolTrue | boolFalse | i8 | i16 | i32 | i64 | dbl | binary | list | set | map | strct
  deriving DecidableEq

namespace CType

/-- A type on the wire. -/
def code : CType → ℕ
  | stop => 0
  | boolTrue => 1
  | boolFalse => 2
  | i8 => 3
  | i16 => 4
  | i32 => 5
  | i64 => 6
  | dbl => 7
  | binary => 8
  | list => 9
  | set => 10
  | map => 11
  | strct => 12

/-- The type of a nibble; three of them are none. -/
def ofCode : ℕ → Option CType
  | 0 => some stop
  | 1 => some boolTrue
  | 2 => some boolFalse
  | 3 => some i8
  | 4 => some i16
  | 5 => some i32
  | 6 => some i64
  | 7 => some dbl
  | 8 => some binary
  | 9 => some list
  | 10 => some set
  | 11 => some map
  | 12 => some strct
  | _ => none

theorem code_of_ofCode {n : ℕ} {t : CType} (h : ofCode n = some t) : n = t.code := by
  unfold ofCode at h
  split at h <;> cases h <;> rfl

theorem code_lt (t : CType) : t.code < 16 := by cases t <;> decide

end CType

/-! ## Messages -/

/-- A field that may be absent, one that may not, and one that then keeps
its default. -/
inductive Kind
  | required
  | defaulted
  | optional
  deriving DecidableEq

/-- What a member of a kind holds. -/
def Slot : Kind → Type → Type
  | .optional, V => Option V
  | .required, V => V
  | .defaulted, V => V

namespace Slot

variable {V W : Type} {k : Kind}

/-- The value of a member, if there is one. -/
def get? : {k : Kind} → Slot k V → Option V
  | .optional, v => (v : Option V)
  | .required, v => some v
  | .defaulted, v => some v

/-- A member with a value. -/
def put : (k : Kind) → V → Slot k V
  | .optional, v => some v
  | .required, v => v
  | .defaulted, v => v

/-- A member as it is before anything is read. -/
def initial (init : V) : (k : Kind) → Slot k V
  | .optional => none
  | .required => init
  | .defaulted => init

/-- What is read into: an absent value is made first. -/
def getD (s : Slot k V) (init : V) : V := s.get?.getD init

@[simp] theorem get?_put (k : Kind) (v : V) : (put k v).get? = some v := by cases k <;> rfl

theorem getD_initial (init : V) (k : Kind) : (initial init k).getD init = init := by
  cases k <;> rfl

theorem initial_of_none {s : Slot k V} {init : V} (h : s.get? = none) :
    (initial init k).get? = none := by
  cases k with
  | optional => rfl
  | required | defaulted => cases h

theorem isSome_of_required (hk : k = .required) (s : Slot k V) : s.get?.isSome = true := by
  subst hk
  rfl

end Slot

/-- What is known of a message of `n` fields at compile time:
`message_info`, with its static assertions, and the names. -/
structure Head (n : ℕ) where
  name : String
  field : Fin n → String
  id : Fin n → ℕ
  kind : Fin n → Kind
  fields_le : n ≤ 64
  id_pos : ∀ k, 1 ≤ id k
  id_le : ∀ k, id k ≤ 32767
  ascending : ∀ j k, j < k → id j < id k

/-- The members of a message. -/
abbrev Record {n : ℕ} (h : Head n) (V : Fin n → Type) : Type := (k : Fin n) → Slot (h.kind k) (V k)

/-- The member types. A `std::string_view`, a `std::string` and `bytes` are
all `binary`. -/
inductive Ty
  | bool
  | i8
  | i16
  | i32
  | i64
  | dbl
  | enum
  | binary
  | vector (elem : Ty)
  | list (elem : Ty)
  | lazy (n : ℕ) (h : Head n) (types : Fin n → Ty)
  | emptyStruct
  | message (n : ℕ) (h : Head n) (types : Fin n → Ty)

def Ty.typeOf : Ty → CType
  | bool => .boolTrue
  | i8 => .i8
  | i16 => .i16
  | i32 => .i32
  | i64 => .i64
  | dbl => .dbl
  | enum => .i32
  | binary => .binary
  | vector _ => .list
  | list _ => .list
  | lazy _ _ _ => .strct
  | emptyStruct => .strct
  | message _ _ _ => .strct

/-! ## Values -/

/-- `list<E>`: the caller's elements, or bytes that were read. `left` is
how many levels there are below `depth_`. -/
inductive ListValue (V : Type)
  | of (elems : List V)
  | wire (region : Bytes) (count elemWire left : ℕ)

/-- `lazy<M>`: the caller's message, or bytes that were read. With no bytes
it is neither. -/
inductive LazyValue (V : Type)
  | of (m : V)
  | wire (region : Bytes) (left : ℕ)

/-- The values of a type: a double is its bits, and an enum its number. -/
def Ty.Value : Ty → Type
  | bool => Bool
  | i8 => BitVec 8
  | i16 => BitVec 16
  | i32 => BitVec 32
  | i64 => BitVec 64
  | dbl => BitVec 64
  | enum => BitVec 32
  | binary => Bytes
  | vector E => List E.Value
  | list E => ListValue E.Value
  | lazy _ h types => LazyValue (Record h fun k => (types k).Value)
  | emptyStruct => Unit
  | message _ h types => Record h fun k => (types k).Value

/-- The values of a struct's members. -/
abbrev Fields {n : ℕ} (h : Head n) (types : Fin n → Ty) : Type := Record h fun k => (types k).Value

/-- `T{}`. -/
def Ty.init : (T : Ty) → T.Value
  | bool => false
  | i8 => 0#8
  | i16 => 0#16
  | i32 => 0#32
  | i64 => 0#64
  | dbl => 0#64
  | enum => 0#32
  | binary => ([] : Bytes)
  | vector E => ([] : List E.Value)
  | list E => (.wire [] 0 0 (maxTaggedDepth + 1) : ListValue E.Value)
  | lazy _ _ _ => .wire [] (maxTaggedDepth + 1)
  | emptyStruct => ()
  | message _ h types => fun k => Slot.initial (types k).init (h.kind k)

end Nanom.Tagged
