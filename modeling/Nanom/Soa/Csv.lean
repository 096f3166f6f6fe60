import Nanom.Avro.Writer

/-!
# CSV rows

`csv_header` and `csv_row` walk a struct each for itself and join its leaves by
commas: the names of the leaves, and their texts as JSON. A number and an array
of bytes are one cell of the row (`OneCell`). An array of two or more of anything
else has commas of its own, and then its text is more columns than its name.
-/

namespace Nanom.Soa

open Layout List Nat

variable (abi : Abi) (ft : Bool → ℕ → List Char) {n : ℕ} (field : Fin n → String)
  (types : Fin n → Ty) (v : (k : Fin n) → (types k).Value)

/-! ## Values as text -/

/-- `std::to_string`. -/
def intText : ℤ → List Char
  | .ofNat n => Nat.toDigits 10 n
  | .negSucc n => '-' :: Nat.toDigits 10 (n + 1)

/-- The number a decoded scalar is: `ft` is `std::to_chars` of a float. -/
def scalarText : (s : Scalar) → s.Value → List Char
  | .bool, v => intText (Bool.toNat v)
  | .int signed _, v => intText (if signed then BitVec.toInt v else BitVec.toNat v)
  | .float double, v => ft double (BitVec.toNat v)

/-- A byte in hexadecimal. -/
def hexText (b : UInt8) : List Char :=
  [Nat.digitChar (b.toNat >>> 4), Nat.digitChar (b.toNat &&& 15)]

def jsonValue : (T : Ty) → T.Value → List Char
  | .struct _ _ field types, v =>
    '\x7b' :: [','].intercalate (List.ofFn fun k =>
      '"' :: ((field k).toList ++ '"' :: ':' :: jsonValue (types k) (v k))) ++ ['\x7d']
  | .array n elem, v =>
    if byteElem abi elem then
      '"' :: ((List.finRange n).flatMap fun k => hexText (Avro.byteValue elem (v k))) ++ ['"']
    else '[' :: [','].intercalate (List.ofFn fun k => jsonValue elem (v k)) ++ [']']
  | .scalar s, v => scalarText ft s v
  | .endian order s, v => scalarText ft s (s.ofBits (order.toNat (List.ofFn v)))
  | .bits signed n _ _ _, v => scalarText ft (.int signed (uintForBits n)) v

/-! ## Columns -/

def csvNames : Ty → List Char → List Char → List (List Char)
  | .struct n _ field types, pre, name => (List.finRange n).flatMap fun k =>
    csvNames (types k) (pre ++ name ++ ['.']) (field k).toList
  | _, pre, name => [pre ++ name]

/-- `csv_value`. -/
def csvValues : (T : Ty) → T.Value → List (List Char)
  | .struct n _ _ types, v => (List.finRange n).flatMap fun k => csvValues (types k) (v k)
  | T, v => [jsonValue abi ft T v]

def csvHeader : List Char :=
  [','].intercalate ((List.finRange n).flatMap fun k => csvNames (types k) [] (field k).toList)

def csvRow : List Char :=
  [','].intercalate ((List.finRange n).flatMap fun k => csvValues abi ft (types k) (v k))

/-- The leaves of a member: the name of each, and its text in a value. -/
def leavesOf : (T : Ty) → List Char → List Char → List (List Char × (T.Value → List Char))
  | .struct n _ field types, pre, name => (List.finRange n).flatMap fun k =>
    (leavesOf (types k) (pre ++ name ++ ['.']) (field k).toList).map fun L =>
      (L.1, fun v => L.2 (v k))
  | T, pre, name => [(pre ++ name, jsonValue abi ft T)]

/-- The leaves of a row. -/
def rowLeaves : List (List Char × (((k : Fin n) → (types k).Value) → List Char)) :=
  (List.finRange n).flatMap fun k =>
    (leavesOf abi ft (types k) [] (field k).toList).map fun L => (L.1, fun v => L.2 (v k))

variable {abi ft} {x : Char} {ls : List (List Char)}

theorem notMem_of_mem_splitOn {l xs : List Char} (h : l ∈ splitOn x xs) : x ∉ l := by
  induction xs generalizing l with
  | nil =>
    rw [splitOn_nil, mem_singleton] at h
    exact h ▸ not_mem_nil
  | cons y xs ih =>
    obtain ⟨a, as, hsplit⟩ := exists_cons_of_ne_nil (splitOn_ne_nil x xs)
    rw [splitOn_cons_eq_if_modifyHead, hsplit] at h
    rw [hsplit] at ih
    split_ifs at h with hy
    · rcases mem_cons.1 h with rfl | h
      · exact not_mem_nil
      · exact ih h
    · rcases mem_cons.1 h with rfl | h
      · exact not_mem_cons_of_ne_of_not_mem (fun hx => hy (by simp [hx])) (ih mem_cons_self)
      · exact ih (mem_cons_of_mem a h)

theorem splitOn_intercalate_iff :
    splitOn x ([x].intercalate ls) = ls ↔ ls ≠ [] ∧ ∀ l ∈ ls, x ∉ l := by
  constructor
  · intro h
    rw [← h]
    exact ⟨splitOn_ne_nil x _, fun l hl => notMem_of_mem_splitOn hl⟩
  · rintro ⟨hne, hall⟩
    exact splitOn_intercalate x hall hne

theorem csvNames_eq (abi : Abi) (ft : Bool → ℕ → List Char) (T : Ty)
    (pre name : List Char) : csvNames T pre name = (leavesOf abi ft T pre name).map Prod.fst := by
  induction T generalizing pre name with
  | struct n _ field types ih => simp [csvNames, leavesOf, map_flatMap, ih, Function.comp_def]
  | _ => rfl

theorem csvValues_eq (T : Ty) (v : T.Value) (pre name : List Char) :
    csvValues abi ft T v = (leavesOf abi ft T pre name).map fun L => L.2 v := by
  induction T generalizing pre name with
  | struct n _ field types ih =>
    simp only [csvValues, leavesOf, map_flatMap, map_map, Function.comp_def]
    exact flatMap_congr fun k _ => ih k (v k) _ _
  | _ => rfl

/-! ## Which types are one cell -/

/-- The text of a value has no comma: a number, an array of bytes, and an array
or a struct of one such value at most. -/
def OneCell (abi : Abi) : Ty → Prop
  | .struct n _ field types => n ≤ 1 ∧ ∀ k, ',' ∉ (field k).toList ∧ OneCell abi (types k)
  | .array n elem => byteElem abi elem = true ∨ n = 0 ∨ n = 1 ∧ OneCell abi elem
  | _ => True

/-- There is a column. -/
def HasLeaf : Ty → Prop
  | .struct _ _ _ types => ∃ k, HasLeaf (types k)
  | _ => True

/-- Every leaf is one cell, and no field on the way to one has a comma in its name. -/
def Columns (abi : Abi) : Ty → Prop
  | .struct _ _ field types =>
    ∀ k, HasLeaf (types k) → ',' ∉ (field k).toList ∧ Columns abi (types k)
  | T => OneCell abi T

theorem comma_notMem_intText (i : ℤ) : ',' ∉ intText i := by
  have hdigits (n : ℕ) : ',' ∉ toDigits 10 n := fun h =>
    absurd (isDigit_of_mem_toDigits (by decide) (by decide) h) (by decide)
  cases i with
  | ofNat n => exact hdigits n
  | negSucc n => exact not_mem_cons_of_ne_of_not_mem (by decide) (hdigits (n + 1))

theorem comma_notMem_hexText (b : UInt8) : ',' ∉ hexText b := by
  have hdigit : ∀ k < 16, ',' ≠ digitChar k := by decide
  have hlt := b.toNat_lt
  have hhigh : b.toNat >>> 4 < 16 := by
    rw [shiftRight_eq_div_pow]
    omega
  have hlow : b.toNat &&& 15 < 16 := lt_succ_of_le and_le_right
  simp only [hexText, mem_cons, not_mem_nil, or_false, not_or]
  exact ⟨hdigit _ hhigh, hdigit _ hlow⟩

theorem comma_notMem_intercalate :
    ',' ∉ [','].intercalate ls ↔ ls.length ≤ 1 ∧ ∀ l ∈ ls, ',' ∉ l := by
  match ls with
  | [] => simp
  | [l] => simp
  | l :: l' :: ls => simp [intercalate_cons_cons]

section

variable (hft : ∀ double u, ',' ∉ ft double u)
include hft

theorem comma_notMem_scalarText (s : Scalar) (v : s.Value) : ',' ∉ scalarText ft s v := by
  cases s with
  | bool | int signed size =>
    rw [scalarText]
    exact comma_notMem_intText _
  | float double => exact hft double _

/-- **The text of a value has a comma or not by its type.** -/
theorem comma_notMem_jsonValue (T : Ty) (v : T.Value) :
    ',' ∉ jsonValue abi ft T v ↔ OneCell abi T := by
  induction T with
  | scalar s | endian order s | bits signed n order le_n n_le =>
    exact iff_of_true (comma_notMem_scalarText hft _ _) trivial
  | array n elem ih =>
    rw [jsonValue, OneCell]
    split_ifs with hbyte
    · refine iff_of_true ?_ (.inl hbyte)
      simp [comma_notMem_hexText]
    · have hcells : ',' ∉ [','].intercalate (ofFn fun k => jsonValue abi ft elem (v k))
          ↔ n ≤ 1 ∧ (Fin n → OneCell abi elem) := by
        simp [comma_notMem_intercalate, ih]
      have hn : n ≤ 1 ∧ (Fin n → OneCell abi elem) ↔ n = 0 ∨ n = 1 ∧ OneCell abi elem := by
        match n with
        | 0 => simp
        | 1 => simp
        | n + 2 => simp
      simpa [hbyte, hn] using hcells
  | struct n name field types ih =>
    rw [jsonValue, OneCell]
    simp [comma_notMem_intercalate, ih]

end

theorem leavesOf_ne_nil (T : Ty) (pre name : List Char) :
    leavesOf abi ft T pre name ≠ [] ↔ HasLeaf T := by
  induction T generalizing pre name with
  | struct n _ field types ih =>
    simp only [leavesOf, HasLeaf, ne_eq, flatMap_eq_nil_iff, map_eq_nil_iff, mem_finRange,
      true_implies, not_forall]
    exact exists_congr fun k => ih k _ _
  | _ => exact iff_of_true (cons_ne_nil _ _) trivial

theorem leavesOf_iff (hft : ∀ double u, ',' ∉ ft double u) (T : Ty) (v : T.Value)
    (pre name : List Char) :
    (∀ L ∈ leavesOf abi ft T pre name, ',' ∉ L.1 ∧ ',' ∉ L.2 v)
      ↔ (HasLeaf T → (',' ∉ pre ∧ ',' ∉ name) ∧ Columns abi T) := by
  induction T generalizing pre name with
  | struct n _ field types ih =>
    have hpre : ',' ∉ pre ++ name ++ ['.'] ↔ ',' ∉ pre ∧ ',' ∉ name := by simp
    simp only [leavesOf, forall_mem_flatMap, forall_mem_map, mem_finRange, true_implies,
      ih _ (v _), hpre, HasLeaf, Columns]
    constructor
    · rintro h ⟨k, hk⟩
      exact ⟨(h k hk).1.1, fun j hj => ⟨(h j hj).1.2, (h j hj).2⟩⟩
    · intro h k hk
      obtain ⟨hnames, hcolumns⟩ := h ⟨k, hk⟩
      exact ⟨⟨hnames, (hcolumns k hk).1⟩, (hcolumns k hk).2⟩
  | scalar s | endian order s | bits signed n order le_n n_le | array n elem ih =>
    simp [leavesOf, HasLeaf, Columns, comma_notMem_jsonValue hft]

/-- **The columns of a row are those of the header** where there is one, every
leaf is one cell and the names have no comma. -/
theorem csv_matches_iff (hft : ∀ double u, ',' ∉ ft double u) :
    (splitOn ',' (csvHeader field types) = (rowLeaves abi ft field types).map Prod.fst ∧
      splitOn ',' (csvRow abi ft types v) = (rowLeaves abi ft field types).map fun L => L.2 v) ↔
    (∃ k, HasLeaf (types k)) ∧
      ∀ k, HasLeaf (types k) → ',' ∉ (field k).toList ∧ Columns abi (types k) := by
  have hnames : (finRange n).flatMap (fun k => csvNames (types k) [] (field k).toList)
      = (rowLeaves abi ft field types).map Prod.fst := by
    simp [rowLeaves, map_flatMap, csvNames_eq abi ft, Function.comp_def]
  have hvalues : (finRange n).flatMap (fun k => csvValues abi ft (types k) (v k))
      = (rowLeaves abi ft field types).map fun L => L.2 v := by
    simp only [rowLeaves, map_flatMap, map_map, Function.comp_def]
    exact flatMap_congr fun k _ => csvValues_eq _ (v k) _ _
  have hne : rowLeaves abi ft field types ≠ [] ↔ ∃ k, HasLeaf (types k) := by
    simp only [rowLeaves, ne_eq, flatMap_eq_nil_iff, map_eq_nil_iff, mem_finRange, true_implies,
      not_forall]
    exact exists_congr fun k => leavesOf_ne_nil _ _ _
  have hcells : (∀ L ∈ rowLeaves abi ft field types, ',' ∉ L.1 ∧ ',' ∉ L.2 v)
      ↔ ∀ k, HasLeaf (types k) → ',' ∉ (field k).toList ∧ Columns abi (types k) := by
    simp only [rowLeaves, forall_mem_flatMap, forall_mem_map, mem_finRange, true_implies,
      leavesOf_iff hft _ (v _), not_mem_nil, not_false_iff, true_and]
  rw [csvHeader, csvRow, hnames, hvalues, splitOn_intercalate_iff, splitOn_intercalate_iff,
    ← hne, ← hcells]
  simp only [ne_eq, map_eq_nil_iff, forall_mem_map]
  constructor
  · rintro ⟨⟨hsome, hname⟩, -, htext⟩
    exact ⟨hsome, fun L hL => ⟨hname L hL, htext L hL⟩⟩
  · rintro ⟨hsome, hall⟩
    exact ⟨⟨hsome, fun L hL => (hall L hL).1⟩, hsome, fun L hL => (hall L hL).2⟩

/-- A number and an array of one. -/
def portAndFlag : Fin 2 → Ty
  | 0 => .endian .big (.int false .two)
  | 1 => .array 1 (.scalar (.int true .four))

/-- Six bytes, and a struct of these. -/
def addressed : Fin 2 → Ty
  | 0 => .array 6 (.scalar (.int false .one))
  | 1 => .struct 2 "inner" (fun _ => "x") portAndFlag

def addressedRow : (k : Fin 2) → (addressed k).Value
  | 0 => fun k => BitVec.ofNat 8 k
  | 1 => fun
    | 0 => fun _ => 7
    | 1 => fun _ => BitVec.ofNat 32 9

theorem csv_matches_iff_addressed :
    splitOn ',' (csvRow (Abi.natural .little) (fun _ _ => ['0']) addressed addressedRow)
      = (rowLeaves (Abi.natural .little) (fun _ _ => ['0']) (fun _ => "x") addressed).map
        fun L => L.2 addressedRow := by
  refine ((csv_matches_iff (fun _ => "x") addressed addressedRow fun _ _ => by decide).2
    ⟨⟨0, trivial⟩, fun k _ => ⟨by decide, ?_⟩⟩).2
  match k with
  | 0 => exact .inl rfl
  | 1 =>
    intro k _
    match k with
    | 0 => exact ⟨by decide, trivial⟩
    | 1 => exact ⟨by decide, .inr (.inr ⟨rfl, trivial⟩)⟩

/-- Two numbers in an array. -/
def twoNumbers : Fin 1 → Ty := fun _ => .array 2 (.scalar (.int false .two))

/-- They are one column of the header and two of the row. -/
theorem array_splits : (splitOn ',' (csvHeader (fun _ => "xs") twoNumbers)).length = 1 ∧
    (splitOn ',' (csvRow (Abi.natural .little) (fun _ _ => []) twoNumbers
      fun _ k => BitVec.ofNat 16 k)).length = 2 := by
  decide +kernel

end Nanom.Soa
