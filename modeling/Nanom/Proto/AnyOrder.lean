import Nanom.Proto.Stability

/-!
# Protobuf — the fields may come in any order

A record changes the member it is for, or the unknown fields, and is changed by
no other record. So what a message is decoded to depends on the records of each
member in their order, and not on how these are interleaved. The records of no
member are kept, and `for_each_unknown` visits them.
-/

namespace Nanom.Proto

open Nanom.Parser List Option

variable {n : ℕ} {h : Head n} {types : Fin n → Ty} {es es' : List Entry} {b b' : Bytes}

/-- The records for a member, or for none. -/
def recordsFor (h : Head n) (types : Fin n → Ty) (o : Option (Fin n)) (es : List Entry) :
    List Entry :=
  es.filter fun e => h.accepting types e.id e.wt = o

theorem recordsFor_cons (o : Option (Fin n)) (e : Entry) (es : List Entry) :
    recordsFor h types o (e :: es) = if h.accepting types e.id e.wt = o
      then e :: recordsFor h types o es else recordsFor h types o es := by
  simp [recordsFor, filter_cons]

/-- **Each member is what its own records make of it.** -/
theorem applyAll_eq_some {m m' : Fields h types} {read : Readers types} :
    applyAll h types read m es = some m' ↔
      m'.unknown = (recordsFor h types none es).foldl (fun u e => u.keep e.bytes) m.unknown ∧
      ∀ k, (recordsFor h types (some k) es).foldlM (fun s e =>
        whole (occurrence (types k) (h.kind k) (read k) e.wt s) e.body) (m.members k)
          = some (m'.members k) := by
  induction es generalizing m with
  | nil =>
    obtain ⟨u, f⟩ := m
    obtain ⟨u', f'⟩ := m'
    simp [applyAll, recordsFor, funext_iff, eq_comm]
  | cons e es ih =>
    have hcons : applyAll h types read m (e :: es) = some m' ↔
        ∃ m₁, e.apply h types read m = some m₁ ∧ applyAll h types read m₁ es = some m' :=
      bind_eq_some_iff
    rw [hcons]
    simp only [ih, recordsFor_cons, Entry.apply]
    cases hacc : h.accepting types e.id e.wt with
    | none => simp
    | some j =>
      cases hv : whole (occurrence (types j) (h.kind j) (read j) e.wt (m.members j)) e.body with
      | none =>
        -- the record is refused, on the left at once and on the right by its own member
        refine iff_of_false (by simp [hv]) fun hall => ?_
        have hj := hall.2 j
        simp [hv] at hj
      | some v =>
        simp only [hv, map_some, some.injEq, exists_eq_left', reduceCtorEq, if_false]
        refine and_congr_right fun _ => forall_congr' fun k => ?_
        by_cases hk : j = k
        · subst hk
          simp [hv]
        · simp [hk, Function.update_of_ne (Ne.symm hk)]

theorem foldl_mark (seen : Fin n → Bool) (k : Fin n) :
    es.foldl (Entry.mark h types) seen k
      = (seen k || !(recordsFor h types (some k) es).isEmpty) := by
  induction es generalizing seen with
  | nil => simp [recordsFor]
  | cons e es ih =>
    rw [foldl_cons, ih, recordsFor_cons, Entry.mark]
    cases h.accepting types e.id e.wt with
    | none => simp
    | some j =>
      by_cases hj : j = k
      · simp [hj]
      · simp [hj, Function.update_of_ne (Ne.symm hj)]

/-- **The fields may come in any order**: two inputs with the same records for
each member, and the same unknown ones, are decoded alike. -/
theorem protobufDecode_any_order (hes : Reads entry b es) (hes' : Reads entry b' es')
    (hsame : ∀ o, recordsFor h types o es = recordsFor h types o es') (m m' : Fields h types) :
    protobufDecode h types m b = .ok m' ↔ protobufDecode h types m b' = .ok m' := by
  have hdecode : ∀ {b es}, Reads entry b es → (protobufDecode h types m b = .ok m' ↔
      applyAll h types (fun k => readLen (types k) 0) m es = some m' ∧
        h.complete (es.foldl (Entry.mark h types) fun _ => false) = true) := by
    intro b es hes
    constructor
    · intro hdec
      obtain ⟨fs, hfs, happly⟩ := readMessageWith_eq_ok.1 hdec
      rw [hes.unique takes_entry hfs] at happly
      exact happly
    · exact fun happly => readMessageWith_eq_ok.2 ⟨es, hes, happly⟩
  have hseen : es.foldl (Entry.mark h types) (fun _ => false)
      = es'.foldl (Entry.mark h types) fun _ => false := by
    funext k
    rw [foldl_mark, foldl_mark, hsame]
  rw [hdecode hes, hdecode hes', hseen, applyAll_eq_some, applyAll_eq_some]
  simp only [hsame]

/-- An unknown field in front: `18 03 08 01` for `08 01 18 03`. -/
theorem protobufDecode_any_order_numbers : ∃ m,
    protobufDecode numbers (fun _ => .scalar (.int true .w32)) (numbersOf [] []) [24, 3, 8, 1]
        = .ok m ∧ m.members 0 = [1#32] ∧ m.unknown.bytes = [24, 3] := by
  refine ⟨_, (@protobufDecode_any_order _ _ _ [⟨[24], [3], 3, 0⟩, ⟨[8], [1], 1, 0⟩]
    [⟨[8], [1], 1, 0⟩, ⟨[24], [3], 3, 0⟩] _ [8, 1, 24, 3] (.cons rfl (.cons rfl .nil))
    (.cons rfl (.cons rfl .nil)) ?_ _ _).2 rfl, rfl, rfl⟩
  rintro (_ | k)
  · rfl
  · obtain rfl := Fin.fin_one_eq_zero k
    rfl

/-! ## The unknown fields -/

/-- The key of a record, which is skipped. -/
def unknownRecord : Read ℕ := fun b => do
  let (key, p) ← readVarint b
  let (_, rest) ← skipValue (key &&& 7) p
  .ok (key, rest)

/-- The loop of `for_each_unknown`: the numbers and wire types it calls back with,
and whether it came to the end. -/
def visitUnknown : ℕ → Bytes → List (ℕ × ℕ) × Bool
  | _, [] => ([], true)
  | 0, _ :: _ => ([], false)
  | fuel + 1, c :: b =>
    match unknownRecord (c :: b) with
    | .error _ => ([], false)
    | .ok (key, rest) =>
      let (calls, done) := visitUnknown fuel rest
      ((key >>> 3, key &&& 7) :: calls, done)

/-- `for_each_unknown`. A record has a byte at least, so the fuel suffices. -/
def forEachUnknown (u : Bytes) : List (ℕ × ℕ) × Bool := visitUnknown u.length u

theorem unknownRecord_of_entry {e : Entry} {rest : Bytes} (he : entry b = .ok (e, rest)) :
    ∃ key, unknownRecord b = .ok (key, rest) ∧ key >>> 3 = e.id ∧ key &&& 7 = e.wt := by
  obtain ⟨⟨rfl, ⟨key, hkey, hid, hwt⟩, -⟩, hskip⟩ := entry_eq_ok.1 he
  rw [← hwt] at hskip
  exact ⟨key, read_eq_ok.2 ⟨_, _, hkey _, read_eq_ok.2 ⟨_, _, hskip, rfl⟩⟩, hid, hwt⟩

theorem visitUnknown_of_reads (hes : Reads entry b es) {fuel : ℕ} (hfuel : b.length ≤ fuel) :
    visitUnknown fuel b = (es.map fun e => (e.id, e.wt), true) := by
  induction hes generalizing fuel with
  | nil => rw [visitUnknown, map_nil]
  | @cons b rest e es he _ ih =>
    have hlen := takes_entry.length_le he
    obtain ⟨c, b, rfl⟩ := exists_cons_of_ne_nil (takes_entry.ne_nil he)
    obtain ⟨key, hkey, hid, hwt⟩ := unknownRecord_of_entry he
    cases fuel with
    | zero => cases hfuel
    | succ fuel =>
      have hrest : rest.length ≤ fuel := by omega
      simp only [visitUnknown, hkey, ih hrest, hid, hwt, map_cons]

/-- **What is kept as unknown is well-formed**: `for_each_unknown` comes to the end
of it, and calls back for each record of the input that no member takes, in order. -/
theorem forEachUnknown_protobuf (hunknown : h.unknown = true) {m : Fields h types}
    (hdec : protobuf h types b = .ok (m, [])) :
    ∃ es, Reads entry b es ∧ forEachUnknown m.unknown.bytes
      = ((es.filter (Entry.foreign h types)).map fun e => (e.id, e.wt), true) := by
  obtain ⟨m₁, hrun, hret⟩ := bind_eq_ok.1 hdec
  cases hret
  obtain ⟨es, hes, happly, -⟩ := readMessageWith_eq_ok.1 hrun
  have hbytes : m.unknown.bytes = (es.filter (Entry.foreign h types)).flatMap Entry.bytes := by
    rw [applyAll_unknown happly]
    exact Unknown.bytes_keep_all hunknown _
  refine ⟨es, hes, ?_⟩
  rw [forEachUnknown, hbytes]
  exact visitUnknown_of_reads (reads_filter hes _) le_rfl

/-- The unknown field of `08 01 18 03`. -/
theorem forEachUnknown_protobuf_numbers : ∃ m,
    protobuf numbers (fun _ => .scalar (.int true .w32)) [8, 1, 24, 3] = .ok (m, []) ∧
    ∃ es, Reads entry [8, 1, 24, 3] es ∧ forEachUnknown m.unknown.bytes
      = ((es.filter (Entry.foreign numbers fun _ => .scalar (.int true .w32))).map fun e =>
        (e.id, e.wt), true) :=
  ⟨_, rfl, forEachUnknown_protobuf rfl rfl⟩

example : forEachUnknown [24, 3] = ([(3, 0)], true) := by decide

end Nanom.Proto
