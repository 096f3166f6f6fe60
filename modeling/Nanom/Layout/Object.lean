import Nanom.Layout.Emit

/-!
# Decoded objects in memory

`wire<F>::decoded` is what a member is decoded to: a scalar in the order of the
host, an array of decoded elements, a struct as it is. `Abi.sizeOf` and
`Abi.object` are its size and its bytes in memory. What the standard leaves to
the compiler is in `Abi`; `Abi.natural` is the usual choice, every member at a
multiple of its alignment.
-/

namespace Nanom.Layout

open Nom List

/-- What the compiler decides. The bytes between the members of a struct are
taken to depend on its value only. -/
structure Abi where
  host : Endian
  structSize : Ty → ℕ
  structBytes : (T : Ty) → T.Value → Bytes
  length_structBytes : ∀ T v, (structBytes T v).length = structSize T
  emptyArray : Ty → Bytes

namespace Abi

variable (abi : Abi)

/-- `sizeof(wire<F>::decoded)`. -/
def sizeOf : Ty → ℕ
  | .scalar s => s.size
  | .endian _ s => s.size
  | .bits _ n _ _ _ => (uintForBits n).bytes
  | .array n elem => if n = 0 then (abi.emptyArray elem).length else n * sizeOf elem
  | .struct n name field types => abi.structSize (.struct n name field types)

/-- The bytes of `wire<F>::decoded(v)`. -/
def object : (T : Ty) → T.Value → Bytes
  | .scalar s, v => uintBytes abi.host s.size (s.toBits v)
  | .endian order s, v =>
    uintBytes abi.host s.size (s.toBits (s.ofBits (order.toNat (List.ofFn v))))
  | .bits _ n _ _ _, v => uintBytes abi.host (uintForBits n).bytes (BitVec.toNat v)
  | .array n elem, v =>
    if n = 0 then abi.emptyArray elem else (List.finRange n).flatMap fun k => object elem (v k)
  | .struct n name field types, v => abi.structBytes (.struct n name field types) v

@[simp] theorem length_object (T : Ty) (v : T.Value) : (abi.object T v).length = abi.sizeOf T := by
  induction T with
  | scalar s | endian order s | bits signed n order le_n n_le => exact length_uintBytes ..
  | array n elem ih =>
    rw [object, sizeOf]
    split_ifs with hn
    · rfl
    · rw [length_flatMap_const fun k => ih (v k), length_finRange]
  | struct n name field types ih => exact abi.length_structBytes _ v

end Abi

/-! ## Natural alignment -/

/-- The next multiple of `a`. -/
def alignUp (a n : ℕ) : ℕ := n + (a - n % a) % a

/-- Bytes up to the next multiple of `a`. -/
def padTo (a : ℕ) (b : Bytes) : Bytes := b ++ List.replicate ((a - b.length % a) % a) 0

@[simp] theorem length_padTo (a : ℕ) (b : Bytes) : (padTo a b).length = alignUp a b.length := by
  rw [padTo, alignUp, length_append, length_replicate]

namespace Ty

/-- `alignof(F)`. -/
def alignOf : Ty → ℕ
  | .scalar s => s.size
  | .endian _ _ => 1
  | .bits _ n _ _ _ => (uintForBits n).bytes
  | .array _ elem => elem.alignOf
  | .struct _ _ _ types => (List.ofFn fun k => (types k).alignOf).foldl max 1

/-- `sizeof(F)`. -/
def memorySize : Ty → ℕ
  | .scalar s => s.size
  | .endian _ s => s.size
  | .bits _ n _ _ _ => (uintForBits n).bytes
  | .array n elem => if n = 0 then 1 else n * elem.memorySize
  | .struct n name field types =>
    alignUp (alignOf (.struct n name field types))
      ((List.finRange n).foldl (fun m k => alignUp (types k).alignOf m + (types k).memorySize) 0)

/-- A member in memory: `be` and `le` keep the bytes of the wire. -/
def memory (host : Endian) : (T : Ty) → T.Value → Bytes
  | .scalar s, v => uintBytes host s.size (s.toBits v)
  | .endian _ _, v => List.ofFn v
  | .bits _ n _ _ _, v => uintBytes host (uintForBits n).bytes (BitVec.toNat v)
  | .array n elem, v =>
    if n = 0 then [0] else (List.finRange n).flatMap fun k => memory host elem (v k)
  | .struct n name field types, v =>
    padTo (alignOf (.struct n name field types))
      ((List.finRange n).foldl
        (fun b k => padTo (types k).alignOf b ++ memory host (types k) (v k)) [])

theorem length_memory (host : Endian) (T : Ty) (v : T.Value) :
    (T.memory host v).length = T.memorySize := by
  induction T with
  | scalar s => exact length_uintBytes ..
  | endian order s => exact length_ofFn
  | bits signed n order le_n n_le => exact length_uintBytes ..
  | array n elem ih =>
    rw [memory, memorySize]
    split_ifs with hn
    · rfl
    · rw [length_flatMap_const fun k => ih (v k), length_finRange]
  | struct n name field types ih =>
    have hfold : ∀ (l : List (Fin n)) (b : Bytes),
        (l.foldl (fun b k => padTo (types k).alignOf b ++ (types k).memory host (v k)) b).length
          = l.foldl (fun m k => alignUp (types k).alignOf m + (types k).memorySize) b.length := by
      intro l
      induction l with
      | nil => exact fun b => rfl
      | cons k l ih' =>
        intro b
        rw [foldl_cons, foldl_cons, ih', length_append, length_padTo, ih]
    rw [memory, memorySize, length_padTo, hfold, length_nil]

end Ty

/-- Every member at a multiple of its alignment, zeros between them. -/
def Abi.natural (host : Endian) : Abi where
  host := host
  structSize := Ty.memorySize
  structBytes := Ty.memory host
  length_structBytes := Ty.length_memory host
  emptyArray _ := [0]

end Nanom.Layout
