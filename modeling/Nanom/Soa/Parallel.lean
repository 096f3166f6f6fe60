import Mathlib.Data.List.Nodup
import Mathlib.Data.List.Range
import Nanom.Soa.Bulk
import Nanom.Soa.Faithful

/-!
# Bulk decoding is independent of the executor

The ranges of `par_exec` are those of `seq_exec` cut in pieces, so its threads
make the same stores. A row stores each of its leaves from `i * elem_bytes` on;
where a leaf is no larger than `elem_bytes`, every interleaving fills the columns
alike. A larger one reaches into the next row's place, where the order of the
threads decides, and behind the column from the last.
-/

namespace Nanom.Soa

open Option (getD_some map_some some)

open BulkTable List Nat

open Layout List

variable {L : Ty} {c dst i j k m : ℕ} {ps : List Bytes} {t : BulkTable} {w : Write}

/-! ## The ranges -/

theorem flatten_parRanges (n chunk : ℕ) {left : ℕ} (h : n ≤ (k + left) * chunk) :
    (parRanges n chunk k left).flatten = range' (k * chunk) (n - k * chunk) := by
  induction left generalizing k with
  | zero =>
    rw [add_zero] at h
    rw [Nat.sub_eq_zero_of_le h]
    rfl
  | succ left ih =>
    have hnext : (k + 1) * chunk = k * chunk + chunk := succ_mul k chunk
    rw [parRanges]
    split_ifs with hdone
    · -- no index is left, or the chunks are empty and there never was one
      have hle : n ≤ k * chunk := by
        by_contra hlt
        have hzero : chunk = 0 := by omega
        rw [hzero] at h
        omega
      rw [Nat.sub_eq_zero_of_le hle]
      rfl
    · rw [flatten_cons, ih (by rwa [add_right_comm k 1 left]), hnext]
      obtain hle | hgt := le_total (k * chunk + chunk) n
      · rw [min_eq_right hle, Nat.add_sub_cancel_left, range'_append_1]
        congr 1
        omega
      · rw [min_eq_left hgt, Nat.sub_eq_zero_of_le hgt]
        exact append_nil _

/-- **The threads' ranges are the indices, in order.** -/
theorem flatten_threads (exec : Exec) (n : ℕ) : (exec.threads n).flatten = range n := by
  cases exec with
  | seq => exact append_nil _
  | par threads hardware =>
    rw [Exec.threads]
    generalize (if threads ≠ 0 then threads else max 1 hardware) = t
    split_ifs with hserial
    · exact append_nil _
    · -- `t` chunks of `n / t`, rounded up, are enough
      have hmod := div_add_mod (n + t - 1) t
      have hlt := mod_lt (n + t - 1) (show 0 < t by omega)
      rw [flatten_parRanges n _ (by rw [zero_add]; omega), zero_mul, Nat.sub_zero, range_eq_range']

theorem disjoint_threads (exec : Exec) (n : ℕ) :
    (exec.threads n).Pairwise fun is js => ∀ i ∈ is, ∀ j ∈ js, i ≠ j := by
  have hnodup : (exec.threads n).flatten.Nodup := flatten_threads exec n ▸ nodup_range
  refine (nodup_flatten.1 hnodup).2.imp fun hdisjoint i hi j hj => ?_
  rintro rfl
  exact hdisjoint hi hj

/-! ## What a row stores -/

theorem byteCopy_append (c dst : ℕ) (b b' : Bytes) :
    byteCopy c dst (b ++ b') = byteCopy c dst b ++ byteCopy c (dst + b.length) b' := by
  have hshift : (fun k x => Write.col c (dst + (k + b.length)) x)
      = fun k x => .col c (dst + b.length + k) x := by
    funext k x
    rw [add_comm k, add_assoc]
  rw [byteCopy, mapIdx_append, hshift]
  rfl

theorem mem_byteCopy {b : Bytes} :
    w ∈ byteCopy c dst b ↔ ∃ k x, b[k]? = some x ∧ w = .col c (dst + k) x := by
  rw [byteCopy, mem_mapIdx]
  constructor
  · rintro ⟨k, hk, rfl⟩
    exact ⟨k, _, getElem?_eq_getElem hk, rfl⟩
  · rintro ⟨k, x, hx, rfl⟩
    obtain ⟨hk, rfl⟩ := List.getElem?_eq_some_iff.1 hx
    exact ⟨k, hk, rfl⟩

theorem scatterElems_eq (c dst : ℕ) {size : ℕ} {ds : List Bytes}
    (hsize : ∀ d ∈ ds, d.length = size) (off : ℕ) :
    scatterElems c dst size ds off = byteCopy c (dst + off) ds.flatten := by
  induction ds generalizing off with
  | nil => rfl
  | cons d ds ih =>
    rw [scatterElems, ih (forall_mem_cons.1 hsize).2, flatten_cons,
      byteCopy_append, hsize d mem_cons_self, add_assoc]

/-- Pieces for the columns from `c` on, each at the row's place in its column. -/
def placeAll (elem : List ℕ) (i : ℕ) : ℕ → List Bytes → List Write
  | _, [] => []
  | c, p :: ps => byteCopy c (rowAt elem i c) p ++ placeAll elem i (c + 1) ps

theorem placeAll_append (elem : List ℕ) (i c : ℕ) (ps qs : List Bytes) :
    placeAll elem i c (ps ++ qs)
      = placeAll elem i c ps ++ placeAll elem i (c + ps.length) qs := by
  induction ps generalizing c with
  | nil => rfl
  | cons p ps ih =>
    rw [cons_append, placeAll, placeAll, ih, append_assoc, length_cons, add_assoc c, add_comm 1]

theorem mem_placeAll {elem : List ℕ} : w ∈ placeAll elem i c ps ↔
    ∃ j p k x, ps[j]? = some p ∧ p[k]? = some x ∧
      w = .col (c + j) (rowAt elem i (c + j) + k) x := by
  induction ps generalizing c with
  | nil => simp [placeAll]
  | cons p ps ih =>
    rw [placeAll, mem_append, mem_byteCopy, ih]
    constructor
    · rintro (⟨k, x, hx, rfl⟩ | ⟨j, q, k, x, hj, hx, rfl⟩)
      · exact ⟨0, p, k, x, rfl, hx, rfl⟩
      · refine ⟨j + 1, q, k, x, hj, hx, ?_⟩
        rw [add_assoc c, add_comm 1]
    · rintro ⟨j, q, k, x, hj, hx, rfl⟩
      cases j with
      | zero =>
        obtain rfl := some.inj hj
        exact .inl ⟨k, x, hx, rfl⟩
      | succ j =>
        refine .inr ⟨j, q, k, x, hj, hx, ?_⟩
        rw [add_assoc c, add_comm 1]

/-- **A row is scattered leaf by leaf.** -/
theorem scatterOne_eq (abi : Abi) (elem : List ℕ) (i : ℕ) (T : Ty) (v : T.Value) (c : ℕ) :
    scatterOne abi elem i T v c
      = (placeAll elem i c (abi.pieces T v), c + (abi.pieces T v).length) := by
  induction T generalizing c with
  | struct n name field types ih =>
    rw [Abi.pieces, Ty.leafValues, map_flatten, map_ofFn, ofFn_eq_map]
    -- the fields done so far have placed their pieces
    have hfold : ∀ (l : List (Fin n)) (ws : List Write) (c : ℕ),
        l.foldl (fun s k => (s.1 ++ (scatterOne abi elem i (types k) (v k) s.2).1,
            (scatterOne abi elem i (types k) (v k) s.2).2)) (ws, c)
          = (ws ++ placeAll elem i c (l.map fun k => abi.pieces (types k) (v k)).flatten,
            c + (l.map fun k => abi.pieces (types k) (v k)).flatten.length) := by
      intro l
      induction l with
      | nil => exact fun ws c => Prod.ext (append_nil ws).symm rfl
      | cons k l ih' =>
        intro ws c
        rw [foldl_cons, ih', ih, map_cons, flatten_cons, placeAll_append,
          append_assoc, length_append, add_assoc]
    exact hfold (finRange n) [] c
  | array n el =>
    have hsize : ∀ d ∈ (finRange n).map fun k => abi.object el (v k), d.length = abi.sizeOf el := by
      intro d hd
      obtain ⟨k, -, rfl⟩ := mem_map.1 hd
      exact abi.length_object el (v k)
    rw [scatterOne, scatterElems_eq c _ hsize]
    refine Prod.ext ?_ rfl
    exact (append_nil _).symm
  | _ => exact Prod.ext (append_nil _).symm rfl

variable {abi : Abi} {T : Ty}

theorem colElem_eq (abi : Abi) (T : Ty) : colElem abi T = T.leaves.map (leafWidth abi) := by
  have hcols := congrArg (map Prod.snd) (buildColumns_leaves abi T "" "")
  rwa [map_map, map_map] at hcols

theorem rowAt_eq (abi : Abi) (hL : T.leaves[c]? = some L) :
    rowAt (colElem abi T) i c = i * leafWidth abi L := by
  rw [rowAt, colElem_eq, getElem?_map, hL]
  rfl

/-- **Row `i` stores the bytes of its leaves**, each behind the row's place in the
column of the leaf. -/
theorem mem_scatterRow {v : T.Value} : w ∈ scatterRow abi (colElem abi T) i T v ↔
    ∃ c L k x, T.leaves[c]? = some L ∧ (piece abi T c v)[k]? = some x ∧
      w = .col c (i * leafWidth abi L + k) x := by
  rw [scatterRow, scatterOne_eq, mem_placeAll]
  constructor
  · rintro ⟨c, p, k, x, hp, hx, rfl⟩
    have hc : c < T.leaves.length := abi.length_pieces T v ▸ (List.getElem?_eq_some_iff.1 hp).1
    refine ⟨c, _, k, x, getElem?_eq_getElem hc, ?_, ?_⟩
    · rwa [piece, hp, getD_some]
    · rw [zero_add, rowAt_eq abi (getElem?_eq_getElem hc)]
  · rintro ⟨c, L, k, x, hL, hx, rfl⟩
    have hc : c < (abi.pieces T v).length := by
      rw [abi.length_pieces]
      exact (List.getElem?_eq_some_iff.1 hL).1
    rw [piece, getElem?_eq_getElem hc, getD_some] at hx
    refine ⟨c, _, k, x, getElem?_eq_getElem hc, hx, ?_⟩
    rw [zero_add, rowAt_eq abi hL]

theorem lt_leafSize {v : T.Value} {x : UInt8} (hL : T.leaves[c]? = some L)
    (hx : (piece abi T c v)[k]? = some x) : k < abi.leafSize L :=
  length_piece hL v ▸ (List.getElem?_eq_some_iff.1 hx).1

theorem getElem?_prepare {n : ℕ} (hL : T.leaves[c]? = some L) :
    (prepare abi T n).storage[c]?
      = some (replicate (n * leafWidth abi L) 0) := by
  have hcol : (colElem abi T)[c]? = some (leafWidth abi L) := by
    rw [colElem_eq, getElem?_map, hL]
    rfl
  rw [colElem, getElem?_map] at hcol
  obtain ⟨info, hinfo, hwidth⟩ := Option.map_eq_some_iff.1 hcol
  rw [prepare, getElem?_map, hinfo, map_some, hwidth]

/-! ## Rows that keep to their place -/

/-- No leaf is larger than its place in a column. -/
def Fits (abi : Abi) (T : Ty) : Prop := ∀ L ∈ T.leaves, abi.leafSize L ≤ leafWidth abi L

theorem Sized.fits (h : Sized abi T) : Fits abi T := fun L hL => (h L hL).le

/-- The stores go to different places, or are both the one a validity byte gets. -/
def Write.Apart : Write → Write → Prop
  | .col c pos _, .col c' pos' _ => c ≠ c' ∨ pos ≠ pos'
  | _, _ => True

theorem write_comm {a b : Write} (h : a.Apart b) (t : BulkTable) :
    (t.write a).write b = (t.write b).write a := by
  rcases a with ⟨c, pos, x⟩ | i
  · rcases b with ⟨c', pos', y⟩ | j
    · have hcols : (t.storage.modify c (·.set pos x)).modify c' (·.set pos' y)
          = (t.storage.modify c' (·.set pos' y)).modify c (·.set pos x) := by
        refine ext_getElem? fun k => ?_
        rw [getElem?_modify, getElem?_modify, getElem?_modify, getElem?_modify]
        by_cases hc : c = k
        · by_cases hc' : c' = k
          · have hpos : pos ≠ pos' := h.resolve_left fun hne => hne (hc.trans hc'.symm)
            simp only [if_pos hc, if_pos hc', Option.map_eq_map, Option.map_map]
            refine congrArg (fun f => Option.map f t.storage[k]?) (funext fun col => ?_)
            exact set_comm _ _ hpos
          · simp only [if_neg hc', Option.map_eq_map, Option.map_id']
        · simp only [if_neg hc, Option.map_eq_map, Option.map_id']
      simp only [write, hcols]
    · rfl
  · rcases b with ⟨c', pos', y⟩ | j
    · rfl
    · have hvalid : (t.valid.set i 1).set j 1 = (t.valid.set j 1).set i 1 := by
        by_cases hij : i = j
        · rw [hij]
        · exact set_comm _ _ hij
      simp only [write, hvalid]

section Tasks

variable {blank : T.Value} {kernel : PktRef → T.Value → Bool × T.Value} {pkts : List PktRef}

theorem mem_task : w ∈ task abi blank kernel pkts i ↔
    ∃ v, (pkts.map (kernelRow blank kernel))[i]? = some (some v) ∧
      (w ∈ scatterRow abi (colElem abi T) i T v ∨ w = .valid i) := by
  rw [task, getElem?_map]
  rcases pkts[i]? with - | p
  · simp
  · rw [Option.bind_some, map_some]
    rcases kernelRow blank kernel p with - | v
    · simp
    · simp

theorem lt_of_mem_task (h : w ∈ task abi blank kernel pkts i) : i < pkts.length := by
  obtain ⟨v, hv, -⟩ := mem_task.1 h
  have hi := (List.getElem?_eq_some_iff.1 hv).1
  rwa [length_map] at hi

/-- The places of the rows in a column do not meet. -/
theorem place_inj {width j' : ℕ} (hk : k < width) (hj : j < width)
    (h : i * width + k = j' * width + j) : i = j' ∧ k = j := by
  have hpos := Nat.zero_lt_of_lt hk
  have hi := (Nat.div_mod_unique hpos).2
    ⟨(by rw [add_comm, mul_comm] : k + width * i = i * width + k), hk⟩
  have hj := (Nat.div_mod_unique hpos).2
    ⟨(by rw [add_comm, mul_comm] : j + width * j' = j' * width + j), hj⟩
  rw [h] at hi
  exact ⟨hi.1.symm.trans hj.1, hi.2.symm.trans hj.2⟩

/-- **Two rows do not get in each other's way.** -/
theorem task_apart (hfits : Fits abi T) (hne : i ≠ j) {a b : Write}
    (ha : a ∈ task abi blank kernel pkts i) (hb : b ∈ task abi blank kernel pkts j) :
    a.Apart b := by
  obtain ⟨v, -, ha | rfl⟩ := mem_task.1 ha
  · obtain ⟨c, L, k, x, hL, hx, rfl⟩ := mem_scatterRow.1 ha
    obtain ⟨v', -, hb | rfl⟩ := mem_task.1 hb
    · obtain ⟨c', L', k', x', hL', hx', rfl⟩ := mem_scatterRow.1 hb
      by_cases hc : c = c'
      · subst hc
        obtain rfl := some.inj (hL.symm.trans hL')
        have hle := hfits L (mem_of_getElem? hL)
        have hk := lt_leafSize hL hx
        have hk' := lt_leafSize hL hx'
        exact .inr fun heq => hne (place_inj (by omega) (by omega) heq).1
      · exact .inl hc
    · trivial
  · trivial

theorem stores_independent (hfits : Fits abi T) (exec : Exec) :
    (stores abi blank kernel pkts exec).Pairwise (Independent write) := by
  rw [stores, pairwise_map]
  refine (disjoint_threads exec pkts.length).imp fun hdisjoint a ha b hb t => ?_
  obtain ⟨i, hi, ha⟩ := mem_flatMap.1 ha
  obtain ⟨j, hj, hb⟩ := mem_flatMap.1 hb
  exact write_comm (task_apart hfits (hdisjoint i hi j hj) ha hb) t

theorem flatten_stores (exec : Exec) : (stores abi blank kernel pkts exec).flatten
    = (range pkts.length).flatMap (task abi blank kernel pkts) := by
  rw [stores, ← flatMap_def, ← flatten_threads exec, ← flatMap_id, flatMap_assoc]
  rfl

theorem foldl_schedule (hfits : Fits abi T) {exec : Exec} {s : List Write}
    (hs : Schedules abi blank kernel pkts exec s) (t : BulkTable) :
    s.foldl write t
      = ((range pkts.length).flatMap (task abi blank kernel pkts)).foldl
        write t := by
  rw [hs.foldl_eq (stores_independent hfits exec), flatten_stores]

/-- **Every store stays inside its column.** -/
theorem task_inside (hfits : Fits abi T) (hw : w ∈ task abi blank kernel pkts i) : w.Inside
    (.prepare abi T pkts.length) := by
  have hi := lt_of_mem_task hw
  obtain ⟨v, -, hw | rfl⟩ := mem_task.1 hw
  · obtain ⟨c, L, k, x, hL, hx, rfl⟩ := mem_scatterRow.1 hw
    have hle := hfits L (mem_of_getElem? hL)
    have hk := lt_leafSize hL hx
    have hmul := mul_le_mul_right (leafWidth abi L) hi
    rw [succ_mul] at hmul
    rw [Write.Inside, getElem?_prepare hL, getD_some, length_replicate]
    omega
  · rw [Write.Inside, prepare, length_replicate]
    exact hi

end Tasks

/-! ## What the columns are filled with -/

namespace BulkTable

variable {p : ℕ}

/-- The byte at a place of a column. -/
def byteAt (t : BulkTable) (c p : ℕ) : Option UInt8 := t.storage[c]?.bind (·[p]?)

theorem byteAt_write_self (t : BulkTable) (c p : ℕ) (x : UInt8) :
    (t.write (.col c p x)).byteAt c p = (t.byteAt c p).map fun _ => x := by
  rw [byteAt, write, getElem?_modify_eq, byteAt]
  rcases t.storage[c]? with - | col
  · rfl
  · exact getElem?_set_self' ..

theorem byteAt_write_other (t : BulkTable) (h : ∀ x, w ≠ .col c p x) :
    (t.write w).byteAt c p = t.byteAt c p := by
  rcases w with ⟨c', p', x⟩ | i
  · rw [byteAt, write, byteAt]
    by_cases hc : c' = c
    · subst hc
      rw [getElem?_modify_eq]
      rcases t.storage[c']? with - | col
      · rfl
      · exact getElem?_set_ne fun hp => h x (by rw [hp])
    · rw [getElem?_modify_ne _ _ hc]
  · rfl

/-- A place that all stores to it leave alike. -/
theorem byteAt_foldl {ws : List Write} {x : UInt8} (h : ∀ y, .col c p y ∈ ws → y = x)
    (t : BulkTable) : (ws.foldl write t).byteAt c p
      = if .col c p x ∈ ws then (t.byteAt c p).map fun _ => x else t.byteAt c p := by
  induction ws generalizing t with
  | nil => rfl
  | cons w ws ih =>
    rw [foldl_cons, ih fun y hy => h y (mem_cons_of_mem w hy)]
    by_cases hw : ∃ y, w = .col c p y
    · obtain ⟨y, rfl⟩ := hw
      obtain rfl := h y mem_cons_self
      rw [byteAt_write_self, if_pos mem_cons_self, Option.map_map]
      exact ite_self _
    · have hmem : .col c p x ∈ w :: ws ↔ .col c p x ∈ ws := by
        rw [mem_cons]
        exact or_iff_right fun heq => hw ⟨x, heq.symm⟩
      rw [byteAt_write_other _ fun y hy => hw ⟨y, hy⟩]
      simp only [hmem]

theorem length_foldl (ws : List Write) (t : BulkTable) :
    (ws.foldl write t).storage.map length = t.storage.map length := by
  induction ws generalizing t with
  | nil => rfl
  | cons w ws ih =>
    rw [foldl_cons, ih]
    rcases w with ⟨c, p, x⟩ | i
    · refine ext_getElem? fun k => ?_
      rw [write, getElem?_map, getElem?_map, getElem?_modify]
      split
      · rw [Option.map_eq_map, Option.map_map, Function.comp_def]
        simp only [length_set]
      · rw [Option.map_eq_map, Option.map_id']
    · rfl

end BulkTable

/-- What a row leaves in column `c`: its piece, or zeros. -/
def cell (abi : Abi) (T : Ty) (c width : ℕ) : Option T.Value → Bytes
  | some v => piece abi T c v
  | none => List.replicate width 0

theorem length_cell (hsized : Sized abi T) (hL : T.leaves[c]? = some L)
    (row : Option T.Value) : (cell abi T c (leafWidth abi L) row).length = leafWidth abi L := by
  cases row with
  | none => exact length_replicate
  | some v => exact (length_piece hL v).trans (hsized L (mem_of_getElem? hL))

section Fill

variable {blank : T.Value} {kernel : PktRef → T.Value → Bool × T.Value} {pkts : List PktRef}
variable (hsized : Sized abi T) (hL : T.leaves[c]? = some L) (hk : k < leafWidth abi L)
  {row : Option T.Value} (hrow : (pkts.map (kernelRow blank kernel))[i]? = some row)

include hsized hL hk hrow

theorem mem_place {y : UInt8} :
    .col c (i * leafWidth abi L + k) y
        ∈ (range pkts.length).flatMap (task abi blank kernel pkts) ↔
      ∃ v, row = some v ∧ (piece abi T c v)[k]? = some y := by
  rw [mem_flatMap]
  constructor
  · rintro ⟨j, -, hw⟩
    obtain ⟨v, hv, hw | hw⟩ := mem_task.1 hw
    · obtain ⟨c', L', k', x, hL', hx, heq⟩ := mem_scatterRow.1 hw
      obtain ⟨rfl, hpos, rfl⟩ := Write.col.inj heq
      obtain rfl := some.inj (hL.symm.trans hL')
      have hk' := hsized L (mem_of_getElem? hL) ▸ lt_leafSize hL hx
      obtain ⟨rfl, rfl⟩ := place_inj hk hk' hpos
      exact ⟨v, some.inj (hrow.symm.trans hv), hx⟩
    · cases hw
  · rintro ⟨v, rfl, hx⟩
    have hmem := mem_task (w := .col c (i * leafWidth abi L + k) y).2
      ⟨v, hrow, .inl (mem_scatterRow.2 ⟨c, L, k, y, hL, hx, rfl⟩)⟩
    exact ⟨i, mem_range.2 (lt_of_mem_task hmem), hmem⟩

/-- **After all stores** a row's place holds what the row leaves. -/
theorem byteAt_stored :
    (((List.range pkts.length).flatMap (task abi blank kernel pkts)).foldl write
        (.prepare abi T pkts.length)).byteAt c (i * leafWidth abi L + k)
      = (cell abi T c (leafWidth abi L) row)[k]? := by
  have hi := (List.getElem?_eq_some_iff.1 hrow).1
  rw [length_map] at hi
  have hmul := mul_le_mul_right (leafWidth abi L) hi
  rw [succ_mul] at hmul
  have hzero : (prepare abi T pkts.length).byteAt c (i * leafWidth abi L + k)
      = some 0 := by
    rw [byteAt, getElem?_prepare hL]
    exact getElem?_replicate_of_lt (by omega)
  have hmem := fun {y} => mem_place (y := y) hsized hL hk hrow
  cases row with
  | none =>
    have hnot : ∀ y, .col c (i * leafWidth abi L + k) y
        ∉ (range pkts.length).flatMap (task abi blank kernel pkts) := by
      intro y hy
      obtain ⟨v, hv, -⟩ := hmem.1 hy
      cases hv
    rw [byteAt_foldl (x := 0) fun y hy => absurd hy (hnot y), if_neg (hnot 0), hzero]
    exact (getElem?_replicate_of_lt hk).symm
  | some v =>
    have hlen := length_cell hsized hL (some v)
    have hx := getElem?_eq_getElem (show k < (piece abi T c v).length from hlen.symm ▸ hk)
    rw [byteAt_foldl (fun y hy => ?_), if_pos (hmem.2 ⟨v, rfl, hx⟩), hzero]
    · exact hx.symm
    · obtain ⟨v', hv, hy⟩ := hmem.1 hy
      cases hv
      exact some.inj (hy.symm.trans hx)

end Fill

/-! ## Executors agree, and fill what `push` appends -/

/-- A scalar, or an array of scalars. Arrays of bit fields do not compile. -/
def ScalarLeaf : Ty → Prop
  | .array _ (.scalar _) => True
  | .array _ (.endian _ _) => True
  | .array _ _ => False
  | .struct _ _ _ _ => False
  | _ => True

theorem sized_of_scalarLeaf (h : ∀ L ∈ T.leaves, ScalarLeaf L) : Sized abi T := by
  refine sized_iff.2 fun n elem hL => ?_
  have hscalar := h _ hL
  cases elem with
  | scalar s | endian order s =>
    rw [Abi.sizeOf, Ty.wireBits, mul_left_comm, Nat.mul_div_cancel_left _ (by decide)]
  | _ => exact hscalar.elim

theorem fits_iff : Fits abi T ↔ ∀ n elem, Ty.array n elem ∈ T.leaves →
    n * abi.sizeOf elem ≤ n * elem.wireBits / 8 := by
  refine ⟨fun h n elem hL => h _ hL, fun h L hL => ?_⟩
  cases L with
  | array n elem => exact h n elem hL
  | _ => exact le_rfl

/-- Column by column, the bytes of a row are those `push` would append, and all
zero where there is no row. -/
structure RowsPushed (abi : Abi) (rows : List (Option T.Value)) (storage : List Bytes) : Prop where
  cells : ∀ (c : ℕ) (info : ColumnInfo), (buildColumns abi T "" "")[c]? = some info →
    ∃ col, storage[c]? = some col ∧ col.length = rows.length * info.elemBytes ∧ ∀ i,
      (∀ v, rows[i]? = some (some v) → ∀ ch : Chunk abi T, (ch.push v).cols[c]?
        = ch.cols[c]?.map (· ++ subspan col (i * info.elemBytes) info.elemBytes)) ∧
      (rows[i]? = some none →
        subspan col (i * info.elemBytes) info.elemBytes = List.replicate info.elemBytes 0)

section Main

variable {blank : T.Value} {kernel : PktRef → T.Value → Bool × T.Value} {pkts : List PktRef}

theorem rowsPushed (hsized : Sized abi T) {exec : Exec} {s : List Write}
    (hs : Schedules abi blank kernel pkts exec s) :
    RowsPushed abi (pkts.map (kernelRow blank kernel))
      (s.foldl write (.prepare abi T pkts.length)).storage where
  cells c info hinfo := by
    obtain ⟨L, hL, -, hwidth⟩ := getElem?_buildColumns hinfo
    have hmap := congrArg (·[c]?) (length_foldl s (.prepare abi T pkts.length))
    simp only [getElem?_map, getElem?_prepare hL] at hmap
    obtain ⟨col, hcol, hlen⟩ := Option.map_eq_some_iff.1 hmap
    have hcell : ∀ i row, (pkts.map (kernelRow blank kernel))[i]? = some row →
        subspan col (i * leafWidth abi L) (leafWidth abi L)
          = cell abi T c (leafWidth abi L) row := by
      intro i row hrow
      refine ext_getElem? fun k => ?_
      rw [getElem?_subspan]
      split_ifs with hk
      · have hbyte := byteAt_stored hsized hL hk hrow
        rwa [← foldl_schedule hsized.fits hs, byteAt, hcol] at hbyte
      · rw [getElem?_eq_none (by rw [length_cell hsized hL]; omega)]
    rw [hwidth]
    refine ⟨col, hcol, by rw [hlen, length_replicate, length_map],
      fun i => ⟨fun v hv ch => ?_, hcell i none⟩⟩
    rw [hcell i _ hv, Chunk.cols_push, Cursor.getElem?_appendAll]
    rfl

end Main

/-- **Bulk decoding does not depend on the executor exactly when no array is
larger in memory than on the wire.** Then every order in which the threads of
`par_exec` store stays inside the columns and leaves the table of `seq_exec`; and
where the leaves of a row are scalars and arrays of scalars, the columns hold what
`push` would append. -/
theorem bulk_agrees_iff (abi : Abi) (T : Ty) :
    (∀ threads hardware n, ((Exec.par threads hardware).threads n).flatten = range n) ∧
    ((∀ (blank : T.Value) (kernel : PktRef → T.Value → Bool × T.Value) (pkts : List PktRef)
        (tbl : BulkTable) (threads hardware : ℕ) (s s' : List Write),
        pkts.all pktRefValid = true → Schedules abi blank kernel pkts (.par threads hardware) s →
        Schedules abi blank kernel pkts .seq s' →
        (∀ w ∈ s, w.Inside (.prepare abi T pkts.length)) ∧
          bulkDecode abi T pkts tbl s = bulkDecode abi T pkts tbl s')
      ↔ ∀ n elem, Ty.array n elem ∈ T.leaves → n * abi.sizeOf elem ≤ n * elem.wireBits / 8) ∧
    ((∀ L ∈ T.leaves, ScalarLeaf L) → ∀ (blank : T.Value)
      (kernel : PktRef → T.Value → Bool × T.Value) (pkts : List PktRef) (tbl : BulkTable)
      (exec : Exec) (s : List Write), pkts.all pktRefValid = true →
      Schedules abi blank kernel pkts exec s →
      RowsPushed abi (pkts.map (kernelRow blank kernel))
        (bulkDecode abi T pkts tbl s).1.storage) := by
  rw [← fits_iff]
  refine ⟨fun threads hardware n => flatten_threads _ n, ⟨fun h L hL => ?_,
    fun hfits blank kernel pkts tbl threads hardware s s' _ hs hs' => ?_⟩,
    fun hscalar blank kernel pkts tbl exec s hvalid hs => ?_⟩
  · -- one row is enough: it stores behind its place, where the column ends
    by_contra hlt
    obtain ⟨c, hc, hget⟩ := mem_iff_getElem.1 hL
    have hL' : T.leaves[c]? = some L := by rw [getElem?_eq_getElem hc, hget]
    have hx := getElem?_eq_getElem
      (show leafWidth abi L < (piece abi T c T.zero).length by rw [length_piece hL']; omega)
    have hall : ∀ exec, Schedules abi T.zero (fun _ r => (true, r)) [{}] exec _ := fun exec =>
      Interleaves.flatten (stores abi T.zero (fun _ r => (true, r)) [{}] exec)
    obtain ⟨hinside, -⟩ := h T.zero (fun _ r => (true, r)) [{}] ⟨[], []⟩ 1 1 _ _ rfl
      (hall (.par 1 1)) (hall .seq)
    have hpos := hinside (.col c (0 * leafWidth abi L + leafWidth abi L) _) (by
      rw [flatten_stores]
      exact mem_flatMap.2 ⟨0, mem_range.2 one_pos,
        mem_append_left _ (mem_scatterRow.2 ⟨c, L, _, _, hL', hx, rfl⟩)⟩)
    rw [Write.Inside, getElem?_prepare hL', Option.getD_some, length_replicate,
      length_singleton] at hpos
    omega
  · refine ⟨fun w hw => ?_, ?_⟩
    · have hmem := hs.mem_flatten hw
      rw [flatten_stores] at hmem
      obtain ⟨i, -, hw⟩ := mem_flatMap.1 hmem
      exact task_inside hfits hw
    · rw [bulkDecode, bulkDecode, foldl_schedule hfits hs, foldl_schedule hfits hs']
  · rw [bulkDecode, if_pos hvalid]
    exact rowsPushed (sized_of_scalarLeaf hscalar) hs

/-! ## Two threads at one byte -/

/-- A kernel for rows of half bytes: a packet with bytes fills its row with its
length. -/
def lengthKernel (p : PktRef) (_ : nibblePairs.Value) : Bool × nibblePairs.Value :=
  (p.len != 0, fun _ _ _ => BitVec.ofNat 8 p.len)

/-- 4096 packets, with bytes in the last one of the first half and the first one
of the second. -/
def borderPackets : List PktRef :=
  List.replicate 2047 ⟨none, 0, 1⟩ ++
    ([⟨some [7], 1, 1⟩, ⟨some [7, 7], 2, 1⟩] ++ List.replicate 2047 ⟨none, 0, 1⟩)

/-- What the task of index `i` stores of them. -/
abbrev borderTask (i : ℕ) : List Write :=
  task (.natural .little) nibblePairs.zero lengthKernel borderPackets i

theorem borderTask_other (h : i ≠ 2047) (h' : i ≠ 2048) : borderTask i = [] := by
  have hrow : borderPackets[i]?.bind (kernelRow nibblePairs.zero lengthKernel) = none := by
    rw [borderPackets]
    obtain hlt | hge := lt_or_ge i 2047
    · rw [getElem?_append_left (by rwa [length_replicate]), getElem?_replicate, if_pos hlt]
      rfl
    rw [getElem?_append_right (by rwa [length_replicate]), length_replicate,
      getElem?_append_right (le_sub_of_add_le (by
        rw [length_cons, length_singleton]; omega)), getElem?_replicate]
    split
    · rfl
    · rfl
  rw [borderTask, task, hrow]

theorem interleaves_second_first {α : Type*} (l l' : List α) : Interleaves [l, l'] (l' ++ l) := by
  induction l' with
  | nil =>
    have hall := Interleaves.flatten [l, []]
    rwa [flatten_cons, flatten_singleton, append_nil] at hall
  | cons a l' ih => exact @Interleaves.step _ [l] [] a l' (l' ++ l) ih

theorem stores_border : stores (.natural .little) nibblePairs.zero lengthKernel borderPackets
    (.par 2 0) = [borderTask 2047, borderTask 2048] := by
  have hthreads : (Exec.par 2 0).threads borderPackets.length
      = [range' 0 2048, range' 2048 2048] := by
    decide +kernel
  have hnil : ∀ is : List ℕ, (∀ i ∈ is, i ≠ 2047 ∧ i ≠ 2048) → is.flatMap borderTask = [] :=
    fun is his => flatMap_eq_nil_iff.2 fun i hi => borderTask_other (his i hi).1 (his i hi).2
  have hlow : (range' 0 2048).flatMap borderTask = borderTask 2047 := by
    rw [show range' 0 2048 = range' 0 2047 ++ [2047] from range'_concat ..,
      flatMap_append, flatMap_singleton, hnil, nil_append]
    intro i hi
    rw [mem_range'_1] at hi
    omega
  have hhigh : (range' 2048 2048).flatMap borderTask = borderTask 2048 := by
    rw [show range' 2048 2048 = 2048 :: range' 2049 2047 from rfl, flatMap_cons, hnil, append_nil]
    intro i hi
    rw [mem_range'_1] at hi
    omega
  rw [stores, hthreads, map_cons, map_singleton, hlow, hhigh]

/-- **A row stored by two threads.** A pair of half bytes takes one byte on the
wire and two in memory, so a row of two pairs stores four bytes in a place of two.
With two threads, rows 2047 and 2048 belong to different ones and share two bytes:
whichever stores last has them. No store leaves the column. -/
theorem border_row_overwritten : borderPackets.all pktRefValid = true ∧
    ∃ s s', Schedules (.natural .little) nibblePairs.zero lengthKernel borderPackets (.par 2 0) s ∧
      Schedules (.natural .little) nibblePairs.zero lengthKernel borderPackets .seq s' ∧
      (∀ w ∈ s, w.Inside (.prepare (.natural .little) nibblePairs borderPackets.length)) ∧
      (bulkDecode (.natural .little) nibblePairs borderPackets ⟨[], []⟩ s).1.storage.map
        (subspan · 4096 2) = [[1, 1]] ∧
      (bulkDecode (.natural .little) nibblePairs borderPackets ⟨[], []⟩ s').1.storage.map
        (subspan · 4096 2) = [[2, 2]] := by
  have hseq : (stores (.natural .little) nibblePairs.zero lengthKernel borderPackets .seq).flatten
      = borderTask 2047 ++ borderTask 2048 := by
    rw [flatten_stores, ← flatten_stores (.par 2 0), stores_border, flatten_cons, flatten_singleton]
  refine ⟨by decide +kernel, borderTask 2048 ++ borderTask 2047,
    borderTask 2047 ++ borderTask 2048, ?_, ?_, ?_, ?_, ?_⟩
  · rw [Schedules, stores_border]
    exact interleaves_second_first _ _
  · rw [← hseq]
    exact Interleaves.flatten _
  · decide +kernel
  · decide +kernel
  · decide +kernel

end Nanom.Soa
