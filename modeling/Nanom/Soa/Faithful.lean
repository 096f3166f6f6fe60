import Mathlib.Data.List.FinRange
import Nanom.Soa.Model

/-!
# What the columns hold

`Ty.leafValues` are the members of a row that are no structs, in the order of the
columns. A row pushed appends `Abi.leafBytes` of each to its column, so a chunk
`Holds` its rows: column by column, their leaves one after another. A reader of a
column steps by `elem_bytes`, which for an array is its size on the wire.
-/

namespace Nanom

open Layout List Option

namespace Layout

namespace Ty

/-- The types of the columns: members that are no structs. -/
def leaves : Ty → List Ty
  | .struct _ _ _ types => (List.ofFn fun k => (types k).leaves).flatten
  | .scalar s => [.scalar s]
  | .endian order s => [.endian order s]
  | .bits signed n order le_n n_le => [.bits signed n order le_n n_le]
  | .array n elem => [.array n elem]

/-- The members of a row that are no structs, each with its type. -/
def leafValues : (T : Ty) → T.Value → List ((L : Ty) × L.Value)
  | .struct _ _ _ types, v => (List.ofFn fun k => (types k).leafValues (v k)).flatten
  | .scalar s, v => [⟨.scalar s, v⟩]
  | .endian order s, v => [⟨.endian order s, v⟩]
  | .bits signed n order le_n n_le, v => [⟨.bits signed n order le_n n_le, v⟩]
  | .array n elem, v => [⟨.array n elem, v⟩]

theorem map_fst_leafValues (T : Ty) (v : T.Value) : (T.leafValues v).map Sigma.fst = T.leaves := by
  induction T with
  | struct n name field types ih =>
    rw [leafValues, map_flatten, map_ofFn]
    exact congrArg (fun f => (ofFn f).flatten) (funext fun k => ih k (v k))
  | _ => rfl

@[simp] theorem length_leafValues (T : Ty) (v : T.Value) :
    (T.leafValues v).length = T.leaves.length := by
  rw [← map_fst_leafValues T v, length_map]

/-- A value, every bit of it zero. -/
def zero : (T : Ty) → T.Value
  | .scalar s => s.ofBits 0
  | .endian _ _ => fun _ => 0
  | .bits _ n _ _ _ => BitVec.ofNat (8 * (uintForBits n).bytes) 0
  | .array _ elem => fun _ => elem.zero
  | .struct _ _ _ types => fun k => (types k).zero

end Ty

namespace Abi

variable (abi : Abi)

/-- The decoded value of a leaf, the elements of an array one after another. -/
def leafBytes : (L : Ty) → L.Value → Bytes
  | .array n elem, v => (List.finRange n).flatMap fun k => abi.object elem (v k)
  | .scalar s, v => abi.object (.scalar s) v
  | .endian order s, v => abi.object (.endian order s) v
  | .bits signed n order le_n n_le, v => abi.object (.bits signed n order le_n n_le) v
  | .struct n name field types, v => abi.object (.struct n name field types) v

/-- The size of `leafBytes`. -/
def leafSize : Ty → ℕ
  | .array n elem => n * abi.sizeOf elem
  | T => abi.sizeOf T

@[simp] theorem length_leafBytes (L : Ty) (v : L.Value) :
    (abi.leafBytes L v).length = abi.leafSize L := by
  cases L with
  | array n elem =>
    rw [leafBytes, leafSize, length_flatMap_const fun k => abi.length_object elem (v k),
      length_finRange]
  | _ => exact abi.length_object _ v

/-- What a row adds to the columns. -/
def pieces (T : Ty) (v : T.Value) : List Bytes :=
  (T.leafValues v).map fun leaf => abi.leafBytes leaf.1 leaf.2

@[simp] theorem length_pieces (T : Ty) (v : T.Value) :
    (abi.pieces T v).length = T.leaves.length := by
  rw [pieces, length_map, Ty.length_leafValues]

end Abi

end Layout

namespace Soa

variable {abi : Abi} {T : Ty}
variable {c : ℕ} {group rows : List T.Value}

/-! ## The list of columns -/

/-- The kind of the column of a leaf. -/
def leafKind (abi : Abi) : Ty → Kind
  | .array _ _ => .fixedBin
  | L => decodedKind abi L

/-- `elem_bytes` of the column of a leaf. -/
def leafWidth (abi : Abi) : Ty → ℕ
  | .array n elem => n * elem.wireBits / 8
  | L => abi.sizeOf L

theorem sizeKind_cases (signed : Bool) (size : ℕ) :
    sizeKind signed size ≠ .fixedBin ∧ sizeKind signed size ≠ .list := by
  rw [sizeKind]
  split_ifs <;> exact ⟨Kind.noConfusion, Kind.noConfusion⟩

theorem scalarKind_cases (s : Scalar) : scalarKind s ≠ .fixedBin ∧ scalarKind s ≠ .list := by
  cases s with
  | bool | int signed s => exact sizeKind_cases ..
  | float double => cases double <;> exact ⟨Kind.noConfusion, Kind.noConfusion⟩

theorem leafColumn_of_scalar (abi : Abi) (L : Ty) (path name : String)
    (hs : fieldSchema abi L name = ⟨name, decodedKind abi L, u32 L.wireBits, 0, .u8⟩)
    (hk : decodedKind abi L ≠ .fixedBin ∧ decodedKind abi L ≠ .list) :
    (leafColumn abi L path name).kind = decodedKind abi L
      ∧ (leafColumn abi L path name).elemBytes = abi.sizeOf L := by
  rw [leafColumn, hs, if_neg (not_or.2 hk)]
  exact ⟨rfl, rfl⟩

theorem buildColumns_leaves (abi : Abi) (T : Ty) (path name : String) :
    (buildColumns abi T path name).map (fun info => (info.kind, info.elemBytes))
      = T.leaves.map fun L => (leafKind abi L, leafWidth abi L) := by
  induction T generalizing path name with
  | struct n _ field types ih =>
    rw [buildColumns, Ty.leaves, map_flatten, map_flatten, map_ofFn, map_ofFn]
    exact congrArg (fun f => (ofFn f).flatten) (funext fun k => ih k _ _)
  | array n elem =>
    have hs : (fieldSchema abi (.array n elem) name).kind = .fixedBin
        ∨ (fieldSchema abi (.array n elem) name).kind = .list := by
      rw [fieldSchema]
      split_ifs
      · exact .inl rfl
      · exact .inr rfl
    rw [buildColumns, leafColumn, if_pos hs]
    · rfl
    · exact fun _ _ _ _ h => Ty.noConfusion h
  | scalar s =>
    obtain ⟨hk, hb⟩ := leafColumn_of_scalar abi (.scalar s) path name rfl (scalarKind_cases s)
    exact congrArg (· :: []) (Prod.ext hk hb)
  | endian order s =>
    obtain ⟨hk, hb⟩ := leafColumn_of_scalar abi (.endian order s) path name rfl
      (scalarKind_cases s)
    exact congrArg (· :: []) (Prod.ext hk hb)
  | bits signed n order le_n n_le =>
    obtain ⟨hk, hb⟩ := leafColumn_of_scalar abi (.bits signed n order le_n n_le) path name rfl
      (scalarKind_cases (.int signed (uintForBits n)))
    exact congrArg (· :: []) (Prod.ext hk hb)

theorem length_buildColumns (abi : Abi) (T : Ty) (path name : String) :
    (buildColumns abi T path name).length = T.leaves.length := by
  have hlen := congrArg length (buildColumns_leaves abi T path name)
  rwa [length_map, length_map] at hlen

/-- The column at a place is that of the leaf there. -/
theorem getElem?_buildColumns {info : ColumnInfo} {path name : String}
    (h : (buildColumns abi T path name)[c]? = some info) :
    ∃ L, T.leaves[c]? = some L ∧ info.kind = leafKind abi L ∧ info.elemBytes = leafWidth abi L := by
  have hc := congrArg (·[c]?) (buildColumns_leaves abi T path name)
  simp only [getElem?_map, h] at hc
  obtain ⟨L, hL, heq⟩ := map_eq_some_iff.1 hc.symm
  exact ⟨L, hL, (congrArg Prod.fst heq).symm, (congrArg Prod.snd heq).symm⟩

/-! ## Pushing a row -/

/-- Pieces for the columns from the next one on. -/
def Cursor.appendAll (s : Cursor) (ps : List Bytes) : Cursor := ps.foldl Cursor.append s

theorem Cursor.appendAll_flatten (s : Cursor) (l : List (List Bytes)) :
    s.appendAll l.flatten = l.foldl Cursor.appendAll s := foldl_flatten

theorem Cursor.getElem?_appendAll (s : Cursor) (ps : List Bytes) (i : ℕ) :
    (s.appendAll ps).cols[i]?
      = s.cols[i]?.map (· ++ if s.c ≤ i then ps[i - s.c]?.getD [] else []) := by
  induction ps generalizing s with
  | nil =>
    have hid : ∀ b : Bytes, b ++ (if s.c ≤ i then ([] : List Bytes)[i - s.c]?.getD [] else [])
        = b := by
      intro b
      rw [getElem?_nil, getD_none, ite_self, append_nil]
    rw [appendAll, foldl_nil, funext hid, Option.map_id']
  | cons p ps ih =>
    have hstep : s.appendAll (p :: ps) = (s.append p).appendAll ps := rfl
    rw [hstep, ih, append, getElem?_modify, Option.map_eq_map, Option.map_map]
    congr 1
    funext b
    obtain hlt | heq | hgt := lt_trichotomy i s.c
    · simp [hlt.not_ge, hlt.ne', (Nat.lt_succ_of_lt hlt).not_ge]
    · simp [heq]
    · have hsub : i - s.c = (i - (s.c + 1)) + 1 := by omega
      have hgt' : s.c + 1 ≤ i := hgt
      rw [Function.comp_apply, if_neg hgt.ne]
      simp only [if_pos hgt', if_pos hgt.le, hsub, getElem?_cons_succ]

/-- A row goes to the columns leaf by leaf. -/
theorem pushOne_eq (abi : Abi) (T : Ty) (v : T.Value) (s : Cursor) :
    pushOne abi T v s = s.appendAll (abi.pieces T v) := by
  induction T generalizing s with
  | struct n name field types ih =>
    rw [Abi.pieces, Ty.leafValues, map_flatten, map_ofFn, Cursor.appendAll_flatten,
      ofFn_eq_map, foldl_map]
    exact congrArg (fun f => (finRange n).foldl f s)
      (funext fun s => funext fun k => ih k (v k) s)
  | _ => rfl

/-- What a row adds to column `c`. -/
def piece (abi : Abi) (T : Ty) (c : ℕ) (v : T.Value) : Bytes := (abi.pieces T v)[c]?.getD []

/-- The columns hold the leaves of the rows, one row after another. -/
structure Chunk.Holds (ch : Chunk abi T) (group : List T.Value) : Prop where
  rows : ch.rows = group.length
  cols : ∀ c < T.leaves.length, ch.cols[c]? = some (group.flatMap (piece abi T c))

theorem Chunk.Holds.empty : (Chunk.empty : Chunk abi T).Holds [] where
  rows := rfl
  cols c hc := by
    rw [Chunk.empty, getElem?_replicate, length_buildColumns, if_pos hc]
    rfl

theorem Chunk.cols_push (ch : Chunk abi T) (v : T.Value) :
    (ch.push v).cols = (Cursor.appendAll ⟨ch.cols, 0⟩ (abi.pieces T v)).cols := by
  rw [← pushOne_eq]
  rfl

theorem Chunk.Holds.push {ch : Chunk abi T} (h : ch.Holds group)
    (v : T.Value) : (ch.push v).Holds (group ++ [v]) where
  rows := by rw [Chunk.push, h.rows, length_append, length_singleton]
  cols c hc := by
    rw [Chunk.cols_push, Cursor.getElem?_appendAll, h.cols c hc, flatMap_append, flatMap_singleton]
    rfl

theorem Chunk.cols_single (abi : Abi) (hc : c < T.leaves.length) (v : T.Value) :
    (Chunk.empty.push v : Chunk abi T).cols[c]? = some (piece abi T c v) := by
  have hholds := (Chunk.Holds.empty : Chunk.Holds (Chunk.empty : Chunk abi T) []).push v
  have hcols := hholds.cols c hc
  rwa [nil_append, flatMap_singleton] at hcols

/-! ## The store -/

/-- The sealed chunks hold `groups` of rows, the open one the `last` rows. -/
structure Store.Holds (s : Store abi T) (groups : List (List T.Value)) (last : List T.Value) :
    Prop where
  sealed : List.Forall₂ Chunk.Holds s.sealed groups
  current : s.current.Holds last

/-- The chunks hold the rows, in order. -/
def Store.Keeps (s : Store abi T) (rows : List T.Value) : Prop :=
  ∃ groups last, s.Holds groups last ∧ groups.flatten ++ last = rows

theorem Store.keeps_new (abi : Abi) (T : Ty) (chunkRows : ℕ) :
    (Store.new chunkRows : Store abi T).Keeps [] := ⟨[], [], ⟨.nil, .empty⟩, rfl⟩

theorem Store.Keeps.sealChunk {s : Store abi T} (h : s.Keeps rows) : s.sealChunk.Keeps rows := by
  obtain ⟨groups, last, ⟨hsealed, hcurrent⟩, rfl⟩ := h
  rw [Store.sealChunk]
  split_ifs with hrows
  · exact ⟨groups, last, ⟨hsealed, hcurrent⟩, rfl⟩
  · refine ⟨groups ++ [last], [], ⟨?_, .empty⟩, ?_⟩
    · exact rel_append hsealed (.cons hcurrent .nil)
    · rw [flatten_append, flatten_singleton, append_nil]

theorem Store.Keeps.push {s : Store abi T} (h : s.Keeps rows) (v : T.Value) :
    (s.push v).Keeps (rows ++ [v]) := by
  obtain ⟨groups, last, ⟨hsealed, hcurrent⟩, rfl⟩ := h
  have hopen : Store.Keeps { s with current := s.current.push v } (groups.flatten ++ last ++ [v]) :=
    ⟨groups, last ++ [v], ⟨hsealed, hcurrent.push v⟩, (append_assoc ..).symm⟩
  rw [Store.push]
  split_ifs
  · exact hopen.sealChunk
  · exact hopen

theorem Store.Keeps.after {s : Store abi T} (h : s.Keeps rows)
    (calls : List (Call T)) : (Run.after Store.step s calls).Keeps (rows ++ pushed calls) := by
  induction calls generalizing s rows with
  | nil => exact (append_nil rows).symm ▸ h
  | cons c calls ih =>
    cases c with
    | push v =>
      have hrun := ih (h.push v)
      rwa [append_assoc] at hrun
    | sealChunk => exact ih h.sealChunk

theorem Store.Keeps.chunks {s : Store abi T} (h : s.Keeps rows) :
    ∃ groups, List.Forall₂ Chunk.Holds s.chunks groups ∧ groups.flatten = rows := by
  obtain ⟨groups, last, ⟨hsealed, hcurrent⟩, rfl⟩ := h
  rw [Store.chunks]
  split_ifs with hrows
  · have hlast : last = [] := length_eq_zero_iff.1 (hcurrent.rows ▸ hrows)
    exact ⟨groups, by rwa [append_nil], by rw [hlast, append_nil]⟩
  · refine ⟨groups ++ [last], rel_append hsealed (.cons hcurrent .nil), ?_⟩
    rw [flatten_append, flatten_singleton]

theorem Store.chunkCount_eq (s : Store abi T) : s.chunkCount = s.chunks.length := by
  rw [Store.chunkCount, Store.chunks, length_append]
  split_ifs <;> rfl

theorem Store.getElem?_chunks (s : Store abi T) {i : ℕ} (hi : i < s.chunkCount) :
    s.chunks[i]? = some (s.chunkAt i) := by
  rw [Store.chunkCount] at hi
  rw [Store.chunkAt, Store.chunks]
  obtain hlt | hge := lt_or_ge i s.sealed.length
  · rw [getElem?_append_left hlt, getElem?_eq_getElem hlt, getD_some]
  · split_ifs at hi ⊢ with hrows
    · omega
    · have heq : i = s.sealed.length := by omega
      rw [heq, getElem?_concat_length, getElem?_eq_none le_rfl, getD_none]

/-! ## Reading a column -/

/-- A chunk read in steps of `elem_bytes` gives its rows back. -/
structure Chunk.Faithful (ch : Chunk abi T) (group : List T.Value) : Prop where
  rows : ch.rows = group.length
  cells : ∀ (c : ℕ) (info : ColumnInfo) (col : Bytes),
    (buildColumns abi T "" "")[c]? = some info → ch.cols[c]? = some col →
    col.length = ch.rows * info.elemBytes
      ∧ ∀ (r : ℕ) (v : T.Value), group[r]? = some v → ∃ leaf, (T.leafValues v)[c]? = some leaf
        ∧ subspan col (r * info.elemBytes) info.elemBytes = abi.leafBytes leaf.1 leaf.2

/-- The chunks that `for_each_chunk` and `chunk_at` visit give the rows back. -/
structure Store.Faithful (s : Store abi T) (rows : List T.Value) : Prop where
  visited : s.chunkCount = s.chunks.length ∧ ∀ i < s.chunkCount, s.chunks[i]? = some (s.chunkAt i)
  chunks : ∃ groups, List.Forall₂ Chunk.Faithful s.chunks groups ∧ groups.flatten = rows

/-- Every leaf appends as many bytes as a reader steps over. -/
def Sized (abi : Abi) (T : Ty) : Prop := ∀ L ∈ T.leaves, abi.leafSize L = leafWidth abi L

theorem sized_iff : Sized abi T ↔ ∀ n elem, Ty.array n elem ∈ T.leaves →
    n * abi.sizeOf elem = n * elem.wireBits / 8 := by
  refine ⟨fun h n elem hL => h _ hL, fun h L hL => ?_⟩
  cases L with
  | array n elem => exact h n elem hL
  | _ => rfl

theorem piece_eq (abi : Abi) (hc : c < T.leaves.length) (v : T.Value) :
    ∃ leaf, (T.leafValues v)[c]? = some leaf ∧ T.leaves[c]? = some leaf.1
      ∧ piece abi T c v = abi.leafBytes leaf.1 leaf.2 := by
  have hlt : c < (T.leafValues v).length := by rwa [Ty.length_leafValues]
  refine ⟨(T.leafValues v)[c], getElem?_eq_getElem hlt, ?_, ?_⟩
  · rw [← Ty.map_fst_leafValues T v, getElem?_map, getElem?_eq_getElem hlt]
    rfl
  · rw [piece, Abi.pieces, getElem?_map, getElem?_eq_getElem hlt]
    rfl

theorem length_piece {L : Ty} (hL : T.leaves[c]? = some L) (v : T.Value) :
    (piece abi T c v).length = abi.leafSize L := by
  obtain ⟨leaf, -, htype, hpiece⟩ := piece_eq abi (List.getElem?_eq_some_iff.1 hL).1 v
  rw [hpiece, Abi.length_leafBytes, some.inj (htype.symm.trans hL)]

theorem Chunk.Holds.faithful {ch : Chunk abi T} (h : ch.Holds group)
    (hsized : Sized abi T) : ch.Faithful group where
  rows := h.rows
  cells c info col hinfo hcol := by
    obtain ⟨L, hL, -, hwidth⟩ := getElem?_buildColumns hinfo
    have hc := (List.getElem?_eq_some_iff.1 hL).1
    have hlen : ∀ v, (piece abi T c v).length = info.elemBytes := fun v => by
      rw [length_piece hL, hsized L (mem_of_getElem? hL), hwidth]
    obtain rfl := some.inj ((h.cols c hc).symm.trans hcol)
    refine ⟨?_, fun r v hr => ?_⟩
    · rw [length_flatMap_const hlen, h.rows]
    · obtain ⟨leaf, hleaf, -, hpiece⟩ := piece_eq abi hc v
      exact ⟨leaf, hleaf, (subspan_flatMap hlen hr).trans hpiece⟩

/-- **The columns give every row back exactly when no array is stored in another
size than its size on the wire.** -/
theorem columns_faithful_iff (abi : Abi) (T : Ty) :
    (∀ chunkRows (calls : List (Call T)),
        (Run.after Store.step (Store.new chunkRows : Store abi T) calls).Faithful (pushed calls))
      ↔ ∀ n elem, Ty.array n elem ∈ T.leaves → n * abi.sizeOf elem = n * elem.wireBits / 8 := by
  rw [← sized_iff]
  constructor
  · -- One row is enough: its piece is the whole column.
    intro h L hL
    obtain ⟨c, hc, hget⟩ := mem_iff_getElem.1 hL
    have hcol := Chunk.cols_single abi hc T.zero
    have hinfo := getElem?_eq_getElem ((length_buildColumns abi T "" "").symm ▸ hc)
    obtain ⟨L', hL', -, hwidth⟩ := getElem?_buildColumns hinfo
    have hsame : L' = L := by rw [getElem?_eq_getElem hc, hget] at hL'; exact (some.inj hL').symm
    obtain ⟨groups, hchunks, -⟩ := (h 0 [.push T.zero]).chunks
    have hone : (Run.after Store.step (Store.new 0 : Store abi T) [.push T.zero]).chunks
        = [Chunk.empty.push T.zero] := rfl
    rw [hone] at hchunks
    obtain _ | ⟨hfaithful, -⟩ := hchunks
    have hlen := (hfaithful.cells c _ _ hinfo hcol).1
    have hrows : (Chunk.empty.push T.zero : Chunk abi T).rows = 1 := rfl
    rwa [length_piece (hsame ▸ hL'), hwidth, hsame, hrows, one_mul] at hlen
  · intro hsized chunkRows calls
    have hkeeps := (Store.keeps_new abi T chunkRows).after calls
    obtain ⟨groups, hholds, hflat⟩ := hkeeps.chunks
    refine ⟨⟨Store.chunkCount_eq _, fun i hi => Store.getElem?_chunks _ hi⟩, groups, ?_, hflat⟩
    exact hholds.imp fun _ _ h => h.faithful hsized

/-- Two pairs of half bytes: `std::array<nibbles, 2>` with two `ubits<4>`. -/
def nibblePairs : Ty :=
  .struct 1 "row" (fun _ => "pairs") fun _ => .array 2 <|
    .struct 2 "nibbles" (fun k => if k.1 = 0 then "high" else "low") fun _ =>
      .bits false 4 .msb0 (Nat.le_of_ble_eq_true rfl) (Nat.le_of_ble_eq_true rfl)

/-- A pair takes one byte on the wire and two in memory: the row pushed puts four
bytes in a column that is read in steps of two. -/
theorem nibblePairs_not_faithful :
    nibblePairs.Compiles
      ∧ (buildColumns (.natural .little) nibblePairs "" "").map ColumnInfo.elemBytes = [2]
      ∧ ((Run.after Store.step (Store.new 4 : Store (.natural .little) nibblePairs)
          [.push nibblePairs.zero]).chunks.map fun ch => (ch.rows, ch.cols.map List.length))
        = [(1, [4])]
      ∧ ¬ (Run.after Store.step (Store.new 4 : Store (.natural .little) nibblePairs)
          [.push nibblePairs.zero]).Faithful [nibblePairs.zero] := by
  refine ⟨⟨rfl, fun _ => ⟨rfl, rfl, fun _ => trivial⟩⟩, by decide, by decide, fun h => ?_⟩
  obtain ⟨groups, hchunks, -⟩ := h.chunks
  obtain _ | ⟨hfaithful, -⟩ := hchunks
  have hlen := (hfaithful.cells 0 _ _ rfl rfl).1
  exact absurd hlen (by decide)

end Soa

end Nanom
