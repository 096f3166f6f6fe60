import Nanom.Common.Run
import Nanom.Layout.Object

/-!
# The columnar store

`soa<T>` keeps the members of its rows in columns, one for each member that is
no struct, through all nested structs. The columns are listed once, by
`build_columns`; a row is added by `push_one`, which walks the type again and
counts the columns as it goes. Rows are collected in an open chunk that is sealed
when it has `chunk_rows` rows, or by a call of `seal`.
-/

namespace Nanom.Soa

open Layout List

/-! ## Columns -/

/-- `dkind`. -/
inductive Kind
  | u8
  | u16
  | u32
  | u64
  | i8
  | i16
  | i32
  | i64
  | f32
  | f64
  | fixedBin
  | list
  | record
deriving DecidableEq

/-- `scalar_kind` for a type of this size. -/
def sizeKind (signed : Bool) (size : ℕ) : Kind :=
  if signed then
    if size = 1 then .i8 else if size = 2 then .i16 else if size = 4 then .i32 else .i64
  else if size = 1 then .u8 else if size = 2 then .u16 else if size = 4 then .u32 else .u64

/-- `scalar_kind` of an arithmetic type: a `bool` is not signed. -/
def scalarKind : Scalar → Kind
  | .bool => sizeKind false 1
  | .int signed s => sizeKind signed s.bytes
  | .float double => if double then .f64 else .f32

/-- `scalar_kind<wire<F>::decoded>`: an array or a struct is not signed. -/
def decodedKind (abi : Abi) : Ty → Kind
  | .scalar s => scalarKind s
  | .endian _ s => scalarKind s
  | .bits signed n _ _ _ => scalarKind (.int signed (uintForBits n))
  | T => sizeKind false (abi.sizeOf T)

/-- `std::is_integral_v<wire<F>::decoded>`. -/
def isIntegral : Ty → Bool
  | .scalar (.float _) => false
  | .endian _ (.float _) => false
  | .array _ _ => false
  | .struct _ _ _ _ => false
  | _ => true

structure SchemaField where
  name : String
  kind : Kind
  bits : ℕ
  size : ℕ
  elem : Kind

/-- The elements of an array are single bytes: it is stored as it is. -/
def byteElem (abi : Abi) (elem : Ty) : Bool := abi.sizeOf elem == 1 && isIntegral elem

def fieldSchema (abi : Abi) (T : Ty) (name : String) : SchemaField :=
  match T with
  | .struct _ _ _ _ => ⟨name, .record, u32 T.wireBits, 0, .u8⟩
  | .array n elem =>
    if byteElem abi elem then ⟨name, .fixedBin, u32 T.wireBits, u32 n, .u8⟩
    else ⟨name, .list, u32 T.wireBits, u32 n, decodedKind abi elem⟩
  | _ => ⟨name, decodedKind abi T, u32 T.wireBits, 0, .u8⟩

def arrowFormat (f : SchemaField) : String :=
  match f.kind with
  | .u8 => "C"
  | .u16 => "S"
  | .u32 => "I"
  | .u64 => "L"
  | .i8 => "c"
  | .i16 => "s"
  | .i32 => "i"
  | .i64 => "l"
  | .f32 => "f"
  | .f64 => "g"
  | .fixedBin => "w:" ++ toString f.size
  | .list => "+w:" ++ toString f.size
  | .record => "+s"

structure ColumnInfo where
  name : String
  kind : Kind
  elemBytes : ℕ
  arrow : String

/-- The column of a member that is no struct. -/
def leafColumn (abi : Abi) (T : Ty) (path name : String) : ColumnInfo :=
  let s := fieldSchema abi T name
  if s.kind = .fixedBin ∨ s.kind = .list then
    let elemBytes := T.wireBits / 8
    ⟨path ++ name, .fixedBin, elemBytes,
      arrowFormat { s with kind := .fixedBin, size := u32 elemBytes }⟩
  else ⟨path ++ name, s.kind, abi.sizeOf T, arrowFormat s⟩

def buildColumns (abi : Abi) : Ty → String → String → List ColumnInfo
  | .struct _ _ field types, path, name =>
    let path := if name.isEmpty then path else path ++ name ++ "."
    (List.ofFn fun k => buildColumns abi (types k) path (field k)).flatten
  | T, path, name => [leafColumn abi T path name]

/-! ## Rows -/

/-- The columns of the open chunk and the next one to write. -/
structure Cursor where
  cols : List Bytes
  c : ℕ

/-- `cols[c++]` grows by some bytes. -/
def Cursor.append (s : Cursor) (b : Bytes) : Cursor := ⟨s.cols.modify s.c (· ++ b), s.c + 1⟩

def pushOne (abi : Abi) : (T : Ty) → T.Value → Cursor → Cursor
  | .struct n _ _ types, v, s =>
    (List.finRange n).foldl (fun s k => pushOne abi (types k) (v k) s) s
  | .array n elem, v, s => s.append ((List.finRange n).flatMap fun k => abi.object elem (v k))
  | .scalar sc, v, s => s.append (abi.object (.scalar sc) v)
  | .endian order sc, v, s => s.append (abi.object (.endian order sc) v)
  | .bits signed n order le_n n_le, v, s =>
    s.append (abi.object (.bits signed n order le_n n_le) v)

@[simp] theorem Cursor.length_append (s : Cursor) (b : Bytes) :
    (s.append b).cols.length = s.cols.length := length_modify ..

@[simp] theorem length_pushOne (abi : Abi) (T : Ty) (v : T.Value) (s : Cursor) :
    (pushOne abi T v s).cols.length = s.cols.length := by
  induction T generalizing s with
  | struct n name field types ih =>
    rw [pushOne]
    generalize finRange n = l
    induction l generalizing s with
    | nil => rfl
    | cons k l ih' => rw [foldl_cons, ih', ih]
  | _ => exact Cursor.length_append ..

/-! ## Chunks -/

variable {abi : Abi} {T : Ty}

/-- `chunk`: a buffer for every column. -/
structure Chunk (abi : Abi) (T : Ty) where
  rows : ℕ
  cols : List Bytes
  length_cols : cols.length = (buildColumns abi T "" "").length

/-- A chunk without rows. -/
def Chunk.empty : Chunk abi T where
  rows := 0
  cols := List.replicate (buildColumns abi T "" "").length []
  length_cols := List.length_replicate

/-- A row more. -/
def Chunk.push (ch : Chunk abi T) (v : T.Value) : Chunk abi T where
  rows := ch.rows + 1
  cols := (pushOne abi T v ⟨ch.cols, 0⟩).cols
  length_cols := (length_pushOne abi T v _).trans ch.length_cols

/-- `soa<T>`: `current` is `open_`. -/
structure Store (abi : Abi) (T : Ty) where
  chunkRows : ℕ
  sealed : List (Chunk abi T)
  current : Chunk abi T
  sealedRows : ℕ
  sealedRows_eq : sealedRows = (sealed.map Chunk.rows).sum

namespace Store

/-- The constructor. -/
def new (chunkRows : ℕ) : Store abi T := ⟨chunkRows, [], .empty, 0, rfl⟩

def columns (_ : Store abi T) : List ColumnInfo := buildColumns abi T "" ""

def rows (s : Store abi T) : ℕ := s.sealedRows + s.current.rows

theorem sealedRows_seal (s : Store abi T) :
    s.sealedRows + s.current.rows = ((s.sealed ++ [s.current]).map Chunk.rows).sum := by
  rw [map_append, sum_append, ← s.sealedRows_eq]
  rfl

/-- `seal`. -/
def sealChunk (s : Store abi T) : Store abi T :=
  if s.current.rows = 0 then s
  else ⟨s.chunkRows, s.sealed ++ [s.current], .empty, s.sealedRows + s.current.rows,
    s.sealedRows_seal⟩

def push (s : Store abi T) (v : T.Value) : Store abi T :=
  let s' : Store abi T := { s with current := s.current.push v }
  if s'.current.rows = s'.chunkRows then s'.sealChunk else s'

/-- The chunks that `for_each_chunk` visits. -/
def chunks (s : Store abi T) : List (Chunk abi T) :=
  s.sealed ++ if s.current.rows = 0 then [] else [s.current]

def chunkCount (s : Store abi T) : ℕ := s.sealed.length + if s.current.rows = 0 then 0 else 1

def chunkAt (s : Store abi T) (i : ℕ) : Chunk abi T := s.sealed[i]?.getD s.current

end Store

/-- The calls that change a store. -/
inductive Call (T : Ty)
  | push (v : T.Value)
  | sealChunk

def Store.step (s : Store abi T) : Call T → Store abi T
  | .push v => s.push v
  | .sealChunk => s.sealChunk

/-- The rows of a list of calls. -/
def pushed (calls : List (Call T)) : List T.Value :=
  calls.filterMap fun
    | .push v => some v
    | .sealChunk => none

end Nanom.Soa
