import Nanom.Common.Interleave
import Nanom.Soa.Model

/-!
# Bulk decoding into columns

`nanom/bulk.hpp`: a task for each packet decodes it and stores the row in columns
allocated beforehand, at the task's own index. What a task does to the table is
the list of bytes it stores (`task`); an executor deals the tasks out to threads,
which store in any interleaving. A store that does not stay inside its column
(`Write.Inside`) is undefined in the source and lost here.
-/

namespace Nanom.Soa

open Layout

/-! ## Stores -/

/-- `pkt_ref`: `data` is what the pointer points to. -/
structure PktRef where
  data : Option Bytes := none
  len : ℕ := 0
  link : ℕ := 1

def pktRefValid (p : PktRef) : Bool := p.data.isSome || p.len == 0

/-- One byte stored: at a place in a column, or the validity of a row. -/
inductive Write
  | col (c pos : ℕ) (b : UInt8)
  | valid (i : ℕ)
deriving DecidableEq

/-- `bulk_table`: a buffer for every column, a validity byte for every row. -/
structure BulkTable where
  storage : List Bytes
  valid : Bytes
deriving DecidableEq

namespace BulkTable

def prepare (abi : Abi) (T : Ty) (n : ℕ) : BulkTable where
  storage := (buildColumns abi T "" "").map fun info => List.replicate (n * info.elemBytes) 0
  valid := List.replicate n 0

/-- A store. -/
def write (t : BulkTable) : Write → BulkTable
  | .col c pos b => { t with storage := t.storage.modify c (·.set pos b) }
  | .valid i => { t with valid := t.valid.set i 1 }

def rows (t : BulkTable) : ℕ := (t.valid.map UInt8.toNat).sum

end BulkTable

/-- The store stays inside the buffer it is meant for. -/
def Write.Inside (t : BulkTable) : Write → Prop
  | .col c pos _ => pos < (t.storage[c]?.getD []).length
  | .valid i => i < t.valid.length

instance (t : BulkTable) : DecidablePred (Write.Inside t)
  | .col _ _ _ | .valid _ => Nat.decLt _ _

/-! ## Scattering a row -/

/-- `byte_copy` to `dst` in column `c`. -/
def byteCopy (c dst : ℕ) (b : Bytes) : List Write := b.mapIdx fun k x => .col c (dst + k) x

section Scatter

variable (abi : Abi) (elem : List ℕ) (i : ℕ)

/-- Where row `i` starts in column `c`: `i * elem[c]`. -/
def rowAt (c : ℕ) : ℕ := i * elem[c]?.getD 0

/-- The loop over the elements of an array; `off` goes up by the size of one. -/
def scatterElems (c dst : ℕ) (size : ℕ) : List Bytes → ℕ → List Write
  | [], _ => []
  | d :: ds, off => byteCopy c (dst + off) d ++ scatterElems c dst size ds (off + size)

/-- `scatter_one`: what it stores, and the next column. -/
def scatterOne : (T : Ty) → T.Value → ℕ → List Write × ℕ
  | .struct n _ _ types, v, c =>
    (List.finRange n).foldl (fun s k =>
      (s.1 ++ (scatterOne (types k) (v k) s.2).1, (scatterOne (types k) (v k) s.2).2)) ([], c)
  | .array n el, v, c =>
    (scatterElems c (rowAt elem i c) (abi.sizeOf el)
      ((List.finRange n).map fun k => abi.object el (v k)) 0, c + 1)
  | .scalar s, v, c => (byteCopy c (rowAt elem i c) (abi.object (.scalar s) v), c + 1)
  | .endian order s, v, c =>
    (byteCopy c (rowAt elem i c) (abi.object (.endian order s) v), c + 1)
  | .bits signed n order le_n n_le, v, c =>
    (byteCopy c (rowAt elem i c) (abi.object (.bits signed n order le_n n_le) v), c + 1)

def scatterRow (T : Ty) (v : T.Value) : List Write := (scatterOne abi elem i T v 0).1

end Scatter

/-! ## Executors -/

/-- `seq_exec` and `par_exec`; `hardware` is `hardware_concurrency()`. -/
inductive Exec
  | seq
  | par (threads hardware : ℕ)

/-- The loop of `par_exec` that makes the threads: from thread `k` on, `left`
threads may still be made. -/
def parRanges (n chunk : ℕ) : ℕ → ℕ → List (List ℕ)
  | _, 0 => []
  | k, left + 1 =>
    let lo := k * chunk
    let hi := min n (lo + chunk)
    if lo ≥ hi then [] else List.range' lo (hi - lo) :: parRanges n chunk (k + 1) left

/-- The threads an executor runs, each as the indices it goes through. -/
def Exec.threads (n : ℕ) : Exec → List (List ℕ)
  | .seq => [List.range n]
  | .par threads hardware =>
    let t := if threads ≠ 0 then threads else max 1 hardware
    if t ≤ 1 ∨ n < 4096 then [List.range n] else parRanges n ((n + t - 1) / t) 0 t

/-! ## `bulk_decode` -/

section Decode

variable (abi : Abi) {T : Ty} (blank : T.Value) (kernel : PktRef → T.Value → Bool × T.Value)
variable (pkts : List PktRef)

/-- The row of a packet: `blank` is the `Row{}` the kernel is handed. -/
def kernelRow (p : PktRef) : Option T.Value :=
  if (kernel p blank).1 then some (kernel p blank).2 else none

def colElem (T : Ty) : List ℕ := (buildColumns abi T "" "").map ColumnInfo.elemBytes

/-- What the task of index `i` stores. -/
def task (i : ℕ) : List Write :=
  match pkts[i]?.bind (kernelRow blank kernel) with
  | some r => scatterRow abi (colElem abi T) i T r ++ [.valid i]
  | none => []

/-- What the threads of an executor store. -/
def stores (exec : Exec) : List (List Write) :=
  (exec.threads pkts.length).map fun is => is.flatMap (task abi blank kernel pkts)

/-- An order an executor can store in. -/
def Schedules (exec : Exec) (s : List Write) : Prop :=
  Interleaves (stores abi blank kernel pkts exec) s

variable (T) in
/-- `bulk_decode` on a table, with the order its stores are made in. -/
def bulkDecode (tbl : BulkTable) (s : List Write) : BulkTable × ℕ :=
  if pkts.all pktRefValid then
    let tbl := s.foldl BulkTable.write (.prepare abi T pkts.length)
    (tbl, tbl.rows)
  else (tbl, 0)

end Decode

end Nanom.Soa
