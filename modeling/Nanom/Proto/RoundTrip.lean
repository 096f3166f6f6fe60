import Nanom.Proto.Encoding
import Nanom.Proto.Records

/-!
# Protobuf — written and read back

The bytes of a message are records, and these are read into an empty message one
by one. Those of a member give the member (`records_read`), so the message is read
as it was written, but for the messages that were kept for later: what comes back
is their bytes (`asRead`). A value has to be `Sound`, as far as the enums and the
unknown fields go, and not too deep (`Nests`).
-/

namespace Nanom.Proto

open Nanom.Parser List Function Nat
open BitVec (isLt ofInt ofInt_toInt ofNat ofNat_toNat setWidth_eq toInt toNat)
open Nanom.Tagged (VectorSink fixedBytes)

variable {depth w : ℕ} {b p : Bytes}

/-! ## Scalars -/

section Scalars

variable {s : Scalar}

/-- An enum is written as a number that is an `int32`. -/
def Scalar.Fits : (s : Scalar) → s.Value → Prop
  | .enum signed w, v => inRange 32 (signedOf ((Scalar.enum signed w).toVarint v))
  | _, _ => True

theorem readVarint_varintBytes {v : ℕ} (hv : v < 2 ^ 64) (rest : Bytes) :
    readVarint (varintBytes v ++ rest) = .ok (v, rest) := by
  rw [varintBytes, u64_of_lt hv]
  exact readVarint_uleb128Encode hv rest

theorem signedOf_ofInt (hw : w ≤ 64) (v : BitVec w) :
    signedOf (ofInt 64 v.toInt).toNat = v.toInt := by
  rw [signedOf, ofNat_toNat]
  exact BitVec.toInt_signExtend_of_le hw

theorem ofInt_signedOf (hw : w ≤ 64) (v : BitVec w) : ofInt w (signedOf v.toNat) = v := by
  rw [signedOf, ofNat_toNat]
  change (v.setWidth 64).signExtend w = v
  rw [BitVec.signExtend_eq_setWidth_of_le _ hw, BitVec.setWidth_setWidth_of_le _ hw,
    setWidth_eq]

theorem inRange_toInt (v : BitVec w) : inRange w v.toInt :=
  ⟨v.le_toInt, Int.le_sub_one_of_lt v.toInt_lt⟩

theorem Scalar.ofVarint_toVarint (hwire : s.wire = .varint) {v : s.Value}
    (hfits : s.Fits v) : s.ofVarint (s.toVarint v) = some v := by
  cases s with
  | bool => cases v <;> rfl
  | int signed w =>
    cases signed with
    | true =>
      change (if inRange w.bits (signedOf _) then some (ofInt w.bits (signedOf _))
        else none) = _
      rw [toVarint, signedOf_ofInt w.bits_le, if_pos (inRange_toInt _), ofInt_toInt]
    | false =>
      change (if toNat v < 2 ^ w.bits then some (ofNat w.bits (toNat v))
        else none) = _
      rw [if_pos (isLt v), ofNat_toNat, setWidth_eq]
  | enum signed w =>
    have hbits : ofInt w.bits (signedOf ((enum signed w).toVarint v)) = v := by
      cases signed with
      | true => rw [toVarint, signedOf_ofInt w.bits_le, ofInt_toInt]
      | false => exact ofInt_signedOf w.bits_le v
    change (if inRange 32 (signedOf ((enum signed w).toVarint v)) then
      some (ofInt w.bits (signedOf ((enum signed w).toVarint v))) else none) = _
    rw [if_pos (show inRange 32 _ from hfits), hbits]
  | sint wide =>
    have hpos : 0 < bitsOf wide := by cases wide <;> decide
    have hint := Wire.zigzagDecode_ofNat_zigzagEncode hpos (bitsOf_le wide) v
    change (if inRange (bitsOf wide) (toInt _) then
      some (ofInt (bitsOf wide) (toInt _)) else none) = _
    rw [toVarint, hint, if_pos (inRange_toInt _), ofInt_toInt]
  | fixed wide | float wide => cases wide <;> cases hwire

theorem Scalar.ofBits_toBits (hwire : s.wire ≠ .varint) (v : s.Value) :
    s.ofBits (leNat (fixedBytes (s.toBits v) (decide (s.wire = .i64)))) = v := by
  have hbits : ∀ (wide : Bool) (v : BitVec (bitsOf wide)),
      ofNat (bitsOf wide) (leNat (fixedBytes v.toNat wide)) = v := by
    intro wide v
    have hlt : v.toNat < 256 ^ (if wide then 8 else 4) := by
      cases wide with
      | true | false => exact v.isLt
    rw [fixedBytes, leNat_leBytes, mod_eq_of_lt hlt, ofNat_toNat, setWidth_eq]
  cases s with
  | fixed wide | float wide =>
    cases wide with
    | true => exact hbits true v
    | false => exact hbits false v
  | _ => exact absurd rfl hwire

/-- **A scalar is read as it was written.** -/
theorem readScalar_bytes {v : s.Value} (hfits : s.Fits v) (rest : Bytes) :
    readScalar s (s.bytes v ++ rest) = .ok (v, rest) := by
  rw [readScalar_eq_ok, Scalar.bytes]
  by_cases hwire : s.wire = .varint
  · rw [if_pos hwire]
    exact .inl ⟨hwire, s.toVarint v, readVarint_varintBytes (s.toVarint_lt v) rest,
      Scalar.ofVarint_toVarint hwire hfits⟩
  rw [if_neg hwire]
  refine .inr ⟨hwire, _, rfl, ?_, (Scalar.ofBits_toBits hwire v).symm⟩
  have hlen := s.length_bytes v
  rw [Scalar.bytes, Scalar.size, if_neg hwire, if_neg hwire] at hlen
  exact hlen

theorem delimited_delimit (hp : p.length < 2 ^ 64) (why : String) (rest : Bytes) :
    delimited why (delimit p ++ rest) = .ok (p, rest) := by
  rw [delimited_eq_ok, delimit, append_assoc]
  exact readVarint_varintBytes hp _

theorem reads_flatMap {ε α β : Type} {p : Parser ε α} {bytes : β → Bytes} {f : β → α}
    {l : List β} (h : ∀ x ∈ l, ∀ rest, p (bytes x ++ rest) = .ok (f x, rest))
    {as : List α} (hb : Reads p b as) : Reads p (l.flatMap bytes ++ b) (l.map f ++ as) := by
  induction l with
  | nil => exact hb
  | cons x l ih =>
    rw [flatMap_cons, append_assoc]
    exact .cons (h x mem_cons_self _) (ih (forall_mem_cons.1 h).2)

/-- What is in a packed field is read one by one. -/
theorem toEnd_pushScalar {ys zs : List s.Value} :
    toEnd (pushScalar s) .unfinished ys b = .ok zs ↔
      ∃ xs, Reads (readScalar s) b xs ∧ zs = ys ++ xs := by
  have hfold : ∀ (l ys : List s.Value),
      l.foldlM (fun ys x => some (ys ++ [x])) ys = some (ys ++ l) := by
    intro l ys
    refine foldlM_pure.trans ?_
    rw [foldl_append_eq_append, ← flatMap_def, flatMap_singleton']
    rfl
  have hstep : ∀ (ys : List s.Value) b zs rest, pushScalar s ys b = .ok (zs, rest) ↔
      ∃ x, readScalar s b = .ok (x, rest) ∧ some (ys ++ [x]) = some zs := by
    intro ys b zs rest
    rw [pushScalar_eq_ok]
    simp [eq_comm]
  rw [toEnd_eq_ok (takes_readScalar s) hstep]
  simp only [hfold, Option.some.injEq, eq_comm]

/-- **A packed field is read as it was written.** -/
theorem readPacked_delimit {xs : List s.Value}
    (hread : ∀ x ∈ xs, ∀ rest, readScalar s (s.bytes x ++ rest) = .ok (x, rest))
    (hlen : (xs.flatMap s.bytes).length < 2 ^ 64) (ys : List s.Value) (rest : Bytes) :
    readPacked s ys (delimit (xs.flatMap s.bytes) ++ rest) = .ok (ys ++ xs, rest) := by
  refine readPacked_eq_ok.2 ⟨xs.flatMap s.bytes, delimited_delimit hlen _ rest, ?_, ?_⟩
  · rw [s.length_packed, Scalar.packedSize, packedWidth, Scalar.width]
    rcases s.wire_cases with h | h | h
    · simp [h, mod_one]
    · simp [h]
    · simp [h]
  · have hreads := reads_flatMap (f := id) hread .nil
    rw [append_nil, append_nil, map_id] at hreads
    exact toEnd_pushScalar.2 ⟨xs, hreads, rfl⟩

end Scalars

/-! ## Members -/

/-- A member with `f` done to what is written of it. -/
def Slot.mapWritten {V : Type} (omitted : V → Bool) (f : V → V) : {k : Kind} → Slot k V → Slot k V
  | .required, v => if omitted v then v else f v
  | .defaulted, v => if omitted v then v else f v
  | .optional, v => Option.map f v
  | .repeated, vs => List.map f vs

/-- **What is read back**: a message that was kept for later comes back as its
bytes. -/
def asRead : (T : Ty) → T.Value → T.Value
  | .message _ h types, m => ⟨m.unknown, fun k =>
    (m.members k).mapWritten ((types k).omitted (h.kind k)) (asRead (types k))⟩
  | .lazy n h types, l => .region (contentOf (.lazy n h types) l)
  | _, v => v

section Members

variable {T : Ty} {k : Kind} {read : T.Value → Bytes → Except Stop T.Value}

theorem Ty.eq_init_of_omitted {v : T.Value} (h : T.omitted k v = true) : v = T.init := by
  cases T with
  | scalar s => exact of_decide_eq_true (Bool.and_eq_true_iff.1 h).2
  | binary => exact isEmpty_iff.1 (Bool.and_eq_true_iff.1 h).2
  | emptyStruct => rfl
  | message n hd types => cases (Bool.and_eq_true_iff.1 h).2
  | lazy n hd types =>
    cases v with
    | none => rfl
    | of m | region b => cases h

theorem whole_readInto (slot : Slot k T.Value) (b : Bytes) :
    whole (readInto T k read slot) b
      = (whole (readOne T k read (slot.target T.init)) b).map slot.store := by
  ext slot'
  rw [whole_eq_some, readInto_eq_ok, Option.map_eq_some_iff]
  constructor
  · rintro ⟨v, hv, rfl⟩
    exact ⟨v, whole_eq_some.2 hv, rfl⟩
  · rintro ⟨v, hv, rfl⟩
    exact ⟨v, whole_eq_some.1 hv, rfl⟩

/-- The occurrences of a member give the member. -/
theorem values_read {bytes : T.Value → Bytes} {back : T.Value → T.Value} {slot : Slot k T.Value}
    (hread : ∀ v ∈ slot.values (T.omitted k),
      whole (readOne T k read T.init) (bytes v) = some (back v)) :
    ((slot.values (T.omitted k)).map fun v => (T.wire, bytes v)).foldlM
        (fun s r => whole (readInto T k read s) r.2) (Slot.initial T.init k)
      = some (slot.mapWritten (T.omitted k) back) := by
  simp only [foldlM_map, whole_readInto]
  -- one value that is there, or none
  have hsingle : ∀ {k : Kind} (v : T.Value), (∀ x ∈ (if T.omitted k v then [] else [v]),
        whole (readOne T k read T.init) (bytes x) = some (back x)) →
      (if T.omitted k v then [] else [v]).foldlM
          (fun out x => (whole (readOne T k read out) (bytes x)).map fun v => v) T.init
        = some (if T.omitted k v then v else back v) := by
    intro k v hv
    by_cases hom : T.omitted k v = true
    · rw [if_pos hom, if_pos hom, Ty.eq_init_of_omitted hom]
      rfl
    · rw [if_neg hom] at hv
      rw [if_neg hom, if_neg hom, foldlM_cons, hv v (mem_singleton_self v)]
      rfl
  cases k with
  | required | defaulted => exact hsingle slot hread
  | optional =>
    cases slot with
    | none => rfl
    | some v =>
      have hv := hread v (mem_singleton_self v)
      change ((whole (readOne T .optional read T.init) (bytes v)).map some >>= _) = _
      rw [hv]
      rfl
  | repeated =>
    have hall : ∀ (l : List T.Value), (∀ v ∈ l,
        whole (readOne T .repeated read T.init) (bytes v) = some (back v)) →
        ∀ xs : List T.Value, l.foldlM (fun xs v =>
          (whole (readOne T .repeated read T.init) (bytes v)).map (concat xs)) xs
          = some (xs ++ l.map back) := by
      intro l
      induction l with
      | nil => exact fun _ xs => by rw [map_nil, append_nil]; rfl
      | cons v l ih =>
        intro hl xs
        rw [foldlM_cons, hl v mem_cons_self]
        change l.foldlM _ (xs.concat (back v)) = _
        rw [ih (forall_mem_cons.1 hl).2, concat_eq_append, append_assoc]
        rfl
    exact hall slot hread []

theorem accepts_of_mem_records {bytes : T.Value → Bytes} {slot : Slot k T.Value}
    {r : WireType × Bytes} (hr : r ∈ records T k bytes slot) : accepts T k r.1.code = true := by
  have hvalues : r ∈ (slot.values (T.omitted k)).map (fun v => (T.wire, bytes v)) →
      (r.1.code == T.wire.code) = true := by
    intro hr
    obtain ⟨v, -, rfl⟩ := mem_map.1 hr
    exact beq_self_eq_true _
  cases T with
  | scalar s =>
    cases k with
    | repeated =>
      unfold records at hr
      dsimp only at hr
      split at hr
      · cases hr
      · cases mem_singleton.1 hr
        exact Bool.or_true _
    | required | defaulted | optional => exact hvalues hr
  | _ => cases k <;> exact hvalues hr

/-- **The records of a member give the member.** -/
theorem records_read {slot : Slot k T.Value} (hread : ∀ v ∈ slot.values (T.omitted k),
      whole (readOne T k read T.init) (valueBytes T v) = some (asRead T v))
    (hlen : ∀ r ∈ records T k (valueBytes T) slot, r.2.length < 2 ^ 64) :
    (records T k (valueBytes T) slot).foldlM
        (fun s r => whole (occurrence T k read r.1.code s) r.2) (Slot.initial T.init k)
      = some (slot.mapWritten (T.omitted k) (asRead T)) := by
  cases T with
  | scalar s =>
    cases k with
    | repeated =>
      unfold records at hlen ⊢
      dsimp only at hlen ⊢
      by_cases hnil : slot = []
      · subst hnil
        rfl
      rw [if_neg hnil] at hlen ⊢
      have hlen : (flatMap s.bytes slot).length < 2 ^ 64 := by
        have := hlen _ (mem_singleton_self _)
        rw [delimit, length_append] at this
        omega
      have hpacked : readPacked s [] (delimit (flatMap s.bytes slot) ++ [])
          = .ok ([] ++ slot, []) :=
        readPacked_delimit (fun x hx => (takes_readScalar s).of_whole (hread x hx)) hlen [] []
      rw [append_nil] at hpacked
      have hne : ¬WireType.len.code = s.wire.code := by
        rcases s.wire_cases with h | h | h <;> rw [h] <;> decide
      change (whole (if WireType.len.code = s.wire.code then pushScalar s [] else
        readPacked s []) (delimit (flatMap s.bytes slot)) >>= _)
          = some (map id slot)
      rw [if_neg hne, whole_eq_some.2 hpacked, map_id]
      rfl
    | required | defaulted | optional => exact values_read hread
  | _ => cases k <;> exact values_read hread

end Members

/-! ## Messages -/

/-- A record that is written, as one that is read. -/
def entryOf (id : ℕ) (r : WireType × Bytes) : Entry :=
  ⟨varintBytes (keyOf id r.1), r.2, id, r.1.code⟩

theorem entry_recordBytes {id : ℕ} (hpos : 1 ≤ id) (hid : id ≤ 32767) {r : WireType × Bytes}
    (hskip : skipValue r.1.code r.2 = .ok ((), [])) (rest : Bytes) :
    entry (recordBytes id r ++ rest) = .ok (entryOf id r, rest) := by
  have hcode := r.1.code_lt
  refine entry_eq_ok.2 ⟨⟨by rw [recordBytes, append_assoc]; rfl, ⟨keyOf id r.1,
    readVarint_varintBytes (keyOf_lt hid r.1), ?_, ?_⟩, ?_⟩,
    (takes_skipValue _).of_whole (whole_eq_some.2 hskip) rest⟩
  · change keyOf id r.1 >>> 3 = id
    rw [keyOf_eq]
    omega
  · change keyOf id r.1 &&& 7 = r.1.code
    rw [keyOf_eq, and_two_pow_sub_one_eq_mod _ 3]
    omega
  · change ¬(id = 0 ∨ 536870911 < id)
    omega

theorem bytes_of_reads {es : List Entry} (h : Reads entry b es) : es.flatMap Entry.bytes = b := by
  induction h with
  | nil => rfl
  | cons he _ ih =>
    rw [flatMap_cons, ih, Entry.bytes, (entry_eq_ok.1 he).1.split, append_assoc]

theorem exists_of_foldlM {σ α : Type} {f : σ → α → Option σ} {l : List α} {s s' : σ}
    (h : l.foldlM f s = some s') {a : α} (ha : a ∈ l) : ∃ t t', f t a = some t' := by
  induction l generalizing s with
  | nil => cases ha
  | cons b l ih =>
    obtain ⟨t, ht, h⟩ := Option.bind_eq_some_iff.1 h
    rcases mem_cons.1 ha with rfl | ha
    · exact ⟨s, t, ht⟩
    · exact ih h ha

theorem length_le_flatMap {α β : Type} {f : α → List β} {l : List α} {a : α} (ha : a ∈ l) :
    (f a).length ≤ (l.flatMap f).length := by
  exact (sublist_flatten_of_mem (mem_map_of_mem ha)).length_le

section Message

variable {n : ℕ} {h : Head n} {types : Fin n → Ty} {read : Readers types}

theorem Head.slotOf_id (k : Fin n) : h.slotOf (h.id k) = some k := by
  rw [Head.slotOf, if_neg (not_lt.2 (h.id_le k))]
  refine find?_eq_some_iff_getElem.2 ⟨decide_eq_true rfl, k, by simp, by simp, fun j hj => ?_⟩
  simpa using (h.ascending ⟨j, hj.trans k.isLt⟩ k hj).ne

theorem Head.accepting_id {k : Fin n} {wt : ℕ} (hok : accepts (types k) (h.kind k) wt = true) :
    h.accepting types (h.id k) wt = some k := by
  rw [Head.accepting, h.slotOf_id]
  exact Option.filter_eq_some_iff.2 ⟨rfl, hok⟩

/-- The records of a member do to a message what they do to the member. -/
theorem applyAll_member {k : Fin n} {rs : List (WireType × Bytes)}
    (hacc : ∀ r ∈ rs, accepts (types k) (h.kind k) r.1.code = true) (m : Fields h types) :
    applyAll h types read m (rs.map (entryOf (h.id k)))
      = (rs.foldlM (fun s r => whole (occurrence (types k) (h.kind k) (read k) r.1.code s) r.2)
          (m.members k)).map fun s => ⟨m.unknown, update m.members k s⟩ := by
  induction rs generalizing m with
  | nil =>
    change some m = some ⟨m.unknown, update m.members k (m.members k)⟩
    rw [update_eq_self]
  | cons r rs ih =>
    have hk := h.accepting_id (hacc r mem_cons_self)
    have hone : (entryOf (h.id k) r).apply h types read m
        = (whole (occurrence (types k) (h.kind k) (read k) r.1.code (m.members k)) r.2).map
            fun v => ⟨m.unknown, update m.members k v⟩ := by
      rw [Entry.apply, entryOf, hk]
    rw [map_cons, applyAll, foldlM_cons, foldlM_cons, hone]
    cases whole (occurrence (types k) (h.kind k) (read k) r.1.code (m.members k)) r.2 with
    | none => rfl
    | some s =>
      have htail := ih (forall_mem_cons.1 hacc).2
        ⟨m.unknown, update m.members k s⟩
      dsimp only at htail
      rw [update_self] at htail
      simp only [update_idem] at htail
      exact htail

theorem applyAll_members {rs : (k : Fin n) → List (WireType × Bytes)}
    {back : (k : Fin n) → Slot (h.kind k) (types k).Value}
    (hacc : ∀ k, ∀ r ∈ rs k, accepts (types k) (h.kind k) r.1.code = true) {ks : List (Fin n)}
    (hks : ks.Nodup) {m : Fields h types} (hback : ∀ k ∈ ks, (rs k).foldlM (fun s r =>
      whole (occurrence (types k) (h.kind k) (read k) r.1.code s) r.2) (m.members k)
        = some (back k)) :
    ∃ m', applyAll h types read m (ks.flatMap fun k => (rs k).map (entryOf (h.id k))) = some m' ∧
      m'.unknown = m.unknown ∧ (∀ k ∈ ks, m'.members k = back k) ∧
      ∀ k, k ∉ ks → m'.members k = m.members k := by
  induction ks generalizing m with
  | nil => exact ⟨m, rfl, rfl, fun _ hk => absurd hk not_mem_nil, fun _ _ => rfl⟩
  | cons k ks ih =>
    obtain ⟨hk, hks⟩ := nodup_cons.1 hks
    rw [flatMap_cons, applyAll_append, applyAll_member (hacc k), hback k mem_cons_self]
    have hmembers : ∀ j ∈ ks, update m.members k (back k) j = m.members j :=
      fun j hj => update_of_ne (ne_of_mem_of_not_mem hj hk) _ _
    obtain ⟨m', hm', hunknown, hin, hout⟩ :=
      ih hks (m := ⟨m.unknown, update m.members k (back k)⟩) (by
        intro j hj
        dsimp only
        rw [hmembers j hj]
        exact hback j (mem_cons_of_mem k hj))
    refine ⟨m', hm', hunknown, fun j hj => ?_, fun j hj => ?_⟩
    · rcases mem_cons.1 hj with rfl | hj
      · exact (hout j hk).trans (update_self _ _ _)
      · exact hin j hj
    · obtain ⟨hjk, hj⟩ := not_or.1 fun hmem => hj (mem_cons.2 hmem)
      exact (hout j hj).trans (update_of_ne hjk _ _)

/-- Bytes that are records of no member. -/
structure Foreign (h : Head n) (types : Fin n → Ty) (b : Bytes) (es : List Entry) : Prop where
  reads : Reads entry b es
  unaccepted : ∀ e ∈ es, h.accepting types e.id e.wt = none

theorem foreign_nil : Foreign h types [] [] := ⟨.nil, fun _ he => nomatch he⟩

theorem applyAll_foreign {es : List Entry} (hes : ∀ e ∈ es, h.accepting types e.id e.wt = none)
    (m : Fields h types) : applyAll h types read m es
      = some ⟨es.foldl (fun u e => u.keep e.bytes) m.unknown, m.members⟩ := by
  induction es generalizing m with
  | nil => rfl
  | cons e es ih =>
    rw [applyAll, foldlM_cons, Entry.apply, hes e mem_cons_self]
    exact ih (forall_mem_cons.1 hes).2 _

theorem Unknown.keep_all {u : Bool} (x : Unknown u) (es : List Entry)
    (hx : x.bytes = es.flatMap Entry.bytes) :
    es.foldl (fun u e => u.keep e.bytes) (Unknown.none u) = x := by
  cases u with
  | false => rfl
  | true =>
    refine (@foldl_append_eq_append _ _ es Entry.bytes []).trans ?_
    rw [nil_append, ← flatMap_def, ← hx]
    rfl

/-- A slot that some record is read into is marked. -/
theorem mark_of_mem {es : List Entry} {k : Fin n} {seen : Fin n → Bool}
    (hk : seen k = true ∨ ∃ e ∈ es, h.accepting types e.id e.wt = some k) :
    es.foldl (Entry.mark h types) seen k = true := by
  induction es generalizing seen with
  | nil =>
    rcases hk with hk | ⟨e, he, -⟩
    · exact hk
    · cases he
  | cons e es ih =>
    refine ih ?_
    rcases hk with hk | ⟨e', he', hk⟩
    · left
      rw [Entry.mark]
      cases h.accepting types e.id e.wt with
      | none => exact hk
      | some j =>
        dsimp only
        rw [update_apply, hk, ite_self]
    · rcases mem_cons.1 he' with rfl | he'
      · left
        rw [Entry.mark, hk]
        exact update_self _ _ _
      · exact .inr ⟨e', he', hk⟩

/-- The records of a message that are those of its members. -/
def declared (h : Head n) (types : Fin n → Ty) (m : Fields h types) : List Entry :=
  (List.finRange n).flatMap fun k =>
    (records (types k) (h.kind k) (valueBytes (types k)) (m.members k)).map (entryOf (h.id k))

/-- What is needed of a message to be read back: its values are, its unknown
fields are records of no member, and the required ones are written. -/
structure Legible (h : Head n) (types : Fin n → Ty)
    (read : Readers types)
    (m : Fields h types) (es : List Entry) : Prop where
  values : ∀ k, ∀ v ∈ m.written h types k,
    whole (readOne (types k) (h.kind k) (read k) (types k).init) (valueBytes (types k) v)
      = some (asRead (types k) v)
  foreign : Foreign h types m.unknown.bytes es
  required : ∀ k, h.kind k = .required → (types k).isLazy = false
  short : (messageBytes h types m).length < 2 ^ 64

variable {m : Fields h types} {es : List Entry}

theorem length_lt_of_record (hlen : (messageBytes h types m).length < 2 ^ 64) {k : Fin n}
    {r : WireType × Bytes}
    (hr : r ∈ records (types k) (h.kind k) (valueBytes (types k)) (m.members k)) :
    r.2.length < 2 ^ 64 := by
  have hmember : (memberBytes h types m (fun k => valueBytes (types k)) k).length ≤
      ((finRange n).flatMap (memberBytes h types m fun k => valueBytes (types k))).length :=
    length_le_flatMap (mem_finRange k)
  have hrecord : (recordBytes (h.id k) r).length ≤
      (memberBytes h types m (fun k => valueBytes (types k)) k).length := length_le_flatMap hr
  rw [messageBytes, messageWith, length_append] at hlen
  rw [recordBytes, length_append] at hrecord
  omega

section

variable (hm : Legible h types read m es)
include hm

theorem Legible.member (k : Fin n) :
    (records (types k) (h.kind k) (valueBytes (types k)) (m.members k)).foldlM
        (fun s r => whole (occurrence (types k) (h.kind k) (read k) r.1.code s) r.2)
        (Slot.initial (types k).init (h.kind k))
      = some ((m.members k).mapWritten ((types k).omitted (h.kind k)) (asRead (types k))) :=
  records_read (hm.values k) fun _ hr => length_lt_of_record hm.short hr

/-- **The bytes of a message are its records.** -/
theorem Legible.reads : Reads entry (messageBytes h types m) (declared h types m ++ es) := by
  have hentry : ∀ k, ∀ r ∈ records (types k) (h.kind k) (valueBytes (types k)) (m.members k),
      ∀ rest, entry (recordBytes (h.id k) r ++ rest) = .ok (entryOf (h.id k) r, rest) := by
    intro k r hr
    obtain ⟨t, t', ht⟩ := exists_of_foldlM (hm.member k) hr
    obtain ⟨u, hskip⟩ := (occurrence_takes (read k) t (accepts_of_mem_records hr)).2
      (whole_eq_some.1 ht)
    exact entry_recordBytes (h.id_pos k) (h.id_le k) hskip
  have hfields : ∀ ks : List (Fin n), Reads entry
      (ks.flatMap (memberBytes h types m fun k => valueBytes (types k)) ++ m.unknown.bytes)
      (ks.flatMap (fun k => (records (types k) (h.kind k) (valueBytes (types k))
        (m.members k)).map (entryOf (h.id k))) ++ es) := by
    intro ks
    induction ks with
    | nil => exact hm.foreign.reads
    | cons k ks ih =>
      rw [flatMap_cons, flatMap_cons, append_assoc, append_assoc]
      exact reads_flatMap (hentry k) ih
  exact hfields (finRange n)

theorem Legible.complete :
    h.complete ((declared h types m ++ es).foldl (Entry.mark h types) fun _ => false) = true := by
  refine decide_eq_true fun k hk => mark_of_mem (.inr ?_)
  have hne : records (types k) (h.kind k) (valueBytes (types k)) (m.members k) ≠ [] := by
    have hlazy := hm.required k hk
    generalize m.members k = slot
    revert slot
    rw [hk]
    intro slot
    generalize valueBytes (types k) = bytes
    revert slot bytes
    generalize types k = T at hlazy
    intro slot bytes
    cases T with
    | lazy => cases hlazy
    | _ => exact cons_ne_nil _ _
  obtain ⟨r, hr⟩ := exists_mem_of_ne_nil _ hne
  refine ⟨entryOf (h.id k) r, mem_append_left _ (mem_flatMap.2 ⟨k, mem_finRange k,
    mem_map_of_mem hr⟩), h.accepting_id (accepts_of_mem_records hr)⟩

/-- **A message is read as it was written.** -/
theorem Legible.readMessageWith :
    readMessageWith h types read (Ty.init (.message n h types)) (messageBytes h types m)
      = .ok (asRead (.message n h types) m) := by
  refine readMessageWith_eq_ok.2 ⟨declared h types m ++ es, hm.reads, ?_, hm.complete⟩
  obtain ⟨⟨unknown, members⟩, happly, hunknown, hmembers, -⟩ :=
    applyAll_members (m := Ty.init (.message n h types)) (fun k r => accepts_of_mem_records)
      (nodup_finRange n) fun k _ => hm.member k
  obtain rfl : members = fun k => _ := funext fun k => hmembers k (mem_finRange k)
  obtain rfl : unknown = _ := hunknown
  rw [applyAll_append, declared, happly, Option.bind_some, applyAll_foreign hm.foreign.unaccepted,
    asRead, ← Unknown.keep_all m.unknown es (bytes_of_reads hm.foreign.reads).symm]
  rfl

end

end Message

/-! ## Values -/

/-- Something that holds of the unknown fields of every message in a value,
where the enums fit. -/
def Throughout (P : (n : ℕ) → Head n → (Fin n → Ty) → Bytes → Prop) : (T : Ty) → T.Value → Prop
  | .scalar s, v => s.Fits v
  | .message n h types, m => P n h types m.unknown.bytes ∧
      ∀ k, ∀ v ∈ m.written h types k, Throughout P (types k) v
  | .lazy n h types, (l : LazyValue (Fields h types)) =>
    ∀ m ∈ l.source, P n h types m.unknown.bytes ∧
      ∀ k, ∀ v ∈ m.written h types k, Throughout P (types k) v
  | _, _ => True

/-- A value without unknown fields. -/
def Plain : (T : Ty) → T.Value → Prop := Throughout fun _ _ _ b => b = []

/-- A value whose unknown fields are records of no member. -/
def Sound : (T : Ty) → T.Value → Prop := Throughout fun _ h types b => ∃ es, Foreign h types b es

theorem Throughout.mono {P Q : (n : ℕ) → Head n → (Fin n → Ty) → Bytes → Prop}
    (hPQ : ∀ n h types b, P n h types b → Q n h types b)
    {T : Ty} {v : T.Value} (h : Throughout P T v) : Throughout Q T v := by
  induction T with
  | scalar s => exact h
  | binary | emptyStruct => trivial
  | message n hd types ih => exact ⟨hPQ _ _ _ _ h.1, fun k v hv => ih k (h.2 k v hv)⟩
  | lazy n hd types ih =>
    exact fun m hm => ⟨hPQ _ _ _ _ (h m hm).1, fun k v hv => ih k ((h m hm).2 k v hv)⟩

theorem Plain.sound {T : Ty} {v : T.Value} (h : Plain T v) : Sound T v :=
  Throughout.mono (fun _ _ _ _ hb => ⟨[], hb ▸ foreign_nil⟩) h

theorem Nests.mono {T : Ty} {depth' : ℕ} {v : T.Value} (h : Nests T depth v)
    (hle : depth' ≤ depth) : Nests T depth' v := by
  induction T generalizing depth depth' with
  | scalar | binary | emptyStruct => trivial
  | message n hd types ih =>
    exact ⟨lt_of_le_of_lt hle h.1, fun k v hv => ih k (h.2 k v hv) (succ_le_succ hle)⟩
  | lazy n hd types ih =>
    exact fun m hm => ⟨lt_of_le_of_lt hle (h m hm).1,
      fun k v hv => ih k ((h m hm).2 k v hv) (succ_le_succ hle)⟩

theorem whole_readDelimited {V : Type} {read : V → Bytes → Except Stop V} {occupied : V → Bool}
    {out v : V} (hp : p.length < 2 ^ 64) (hocc : occupied out = false)
    (hread : read out p = .ok v) :
    whole (readDelimited read occupied out) (delimit p) = some v := by
  have hdelimited := delimited_delimit hp fitting []
  rw [append_nil] at hdelimited
  exact whole_eq_some.2 (readDelimited_eq_ok.2 ⟨p, hdelimited, hocc, hread⟩)

theorem length_lt_of_delimit (h : (delimit p).length < 2 ^ 64) : p.length < 2 ^ 64 := by
  rw [delimit, length_append] at h
  omega

section Values

variable {n : ℕ} {h : Head n} {types : Fin n → Ty} {m : Fields h types}

theorem length_lt_of_written (hlen : (messageBytes h types m).length < 2 ^ 64) {k : Fin n}
    {v : (types k).Value} (hv : v ∈ m.written h types k) (hwire : (types k).wire = .len) :
    (valueBytes (types k) v).length < 2 ^ 64 := by
  have hmem : ∀ {T : Ty} {k : Kind} {bytes : T.Value → Bytes} {slot : Slot k T.Value}
      {v : T.Value}, T.wire = .len → v ∈ slot.values (T.omitted k) →
      (T.wire, bytes v) ∈ records T k bytes slot := by
    intro T k bytes slot v hwire hv
    have hmap : (T.wire, bytes v) ∈ (slot.values (T.omitted k)).map fun v => (T.wire, bytes v) :=
      mem_map_of_mem hv
    cases T with
    | scalar s =>
      rcases s.wire_cases with hs | hs | hs <;> rw [Ty.wire, hs] at hwire <;> cases hwire
    | _ => cases k <;> exact hmap
  exact length_lt_of_record hlen (hmem hwire hv)

/-- A message is legible if its values can be read, at some depth. -/
theorem legible_of_values {es : List Entry}
    (hmodel : (Ty.message n h types).checkModel) (hes : Foreign h types m.unknown.bytes es)
    (hlen : (messageBytes h types m).length < 2 ^ 64) (hread : ∀ k, ∀ v ∈ m.written h types k,
      ((types k).wire = .len → (valueBytes (types k) v).length < 2 ^ 64) →
      whole (readOne (types k) (h.kind k) (readLen (types k) depth) (types k).init)
        (valueBytes (types k) v) = some (asRead (types k) v)) :
    Legible h types (fun k => readLen (types k) depth) m es :=
  ⟨fun k v hv => hread k v hv (length_lt_of_written hlen hv), hes, fun k => (hmodel k).1, hlen⟩

end Values

/-- **A value is read as it was written.** -/
theorem readOne_valueBytes {T : Ty} (hmodel : T.checkModel) {v : T.Value}
    (hsound : Sound T v) (hnests : Nests T depth v)
    (hlen : T.wire = .len → (valueBytes T v).length < 2 ^ 64) (k : Kind) :
    whole (readOne T k (readLen T depth) T.init) (valueBytes T v) = some (asRead T v) := by
  induction T generalizing depth k with
  | scalar s =>
    have hread := readScalar_bytes hsound []
    rw [append_nil] at hread
    exact whole_eq_some.2 hread
  | binary | emptyStruct => exact whole_readDelimited (length_lt_of_delimit (hlen rfl)) rfl rfl
  | message n h types ih =>
    have hshort := length_lt_of_delimit (hlen rfl)
    obtain ⟨es, hes⟩ := hsound.1
    have hm := legible_of_values hmodel hes hshort fun k v hv hlen =>
      ih k (hmodel k).2 (hsound.2 k v hv) (hnests.2 k v hv) hlen (h.kind k)
    refine whole_readDelimited hshort rfl ?_
    rw [readLen, if_neg (not_le.2 hnests.1)]
    exact hm.readMessageWith
  | lazy n h types ih =>
    refine whole_readDelimited (length_lt_of_delimit (hlen rfl)) ?_ rfl
    cases k <;> rfl

section Message

variable {n : ℕ} {h : Head n} {types : Fin n → Ty} {m : Fields h types}

/-- **A message is read as it was written**, at any depth that it fits. -/
theorem legible {es : List Entry} (hmodel : (Ty.message n h types).checkModel)
    (hes : Foreign h types m.unknown.bytes es)
    (hsound : ∀ k, ∀ v ∈ m.written h types k, Sound (types k) v)
    (hnests : ∀ k, ∀ v ∈ m.written h types k, Nests (types k) depth v)
    (hlen : (messageBytes h types m).length < 2 ^ 64) :
    Legible h types (fun k => readLen (types k) depth) m es :=
  legible_of_values hmodel hes hlen fun k v hv hlen =>
    readOne_valueBytes (hmodel k).2 (hsound k v hv) (hnests k v hv) hlen (h.kind k)

end Message

/-! ## What comes back is the same -/

/-- Members that agree. -/
def SameSlot {V : Type} (R : V → V → Prop) : {k : Kind} → Slot k V → Slot k V → Prop
  | .required, v, v' => R v v'
  | .defaulted, v, v' => R v v'
  | .optional, v, v' => Option.Rel R v v'
  | .repeated, vs, vs' => List.Forall₂ R vs vs'

/-- Results that agree: both fail alike, or neither does. -/
def SameResult {V : Type} (R : V → V → Prop) : Except Stop V → Except Stop V → Prop
  | .ok v, .ok v' => R v v'
  | .error e, .error e' => e = e'
  | _, _ => False

/-- Messages that agree. -/
def SameMessage {n : ℕ} {h : Head n} {V : Fin n → Type} (R : (k : Fin n) → V k → V k → Prop)
    (m m' : Message h V) : Prop :=
  m.unknown = m'.unknown ∧ ∀ k, SameSlot (R k) (m.members k) (m'.members k)

/-- **Values that are the same**, where a message that is kept for later is
what it decodes to. -/
def Same : (T : Ty) → T.Value → T.Value → Prop
  | .message _ _ types, m, m' => SameMessage (fun k => Same (types k)) m m'
  | .lazy _ h types, l, l' =>
    SameResult (SameMessage fun k => Same (types k)) (LazyValue.decode h types l)
      (LazyValue.decode h types l')
  | _, v, v' => v = v'

theorem SameSlot.map {V : Type} {R : V → V → Prop} {omitted : V → Bool} {f : V → V}
    (hrefl : ∀ v, R v v) {k : Kind} {slot : Slot k V}
    (h : ∀ v ∈ slot.values omitted, R v (f v)) : SameSlot R slot (slot.mapWritten omitted f) := by
  have hsingle : ∀ v : V, (∀ x ∈ (if omitted v then [] else [v]), R x (f x)) →
      R v (if omitted v then v else f v) := by
    intro v hv
    split
    · exact hrefl v
    · rename_i hom
      rw [if_neg hom] at hv
      exact hv v (mem_singleton_self v)
  cases k with
  | required | defaulted => exact hsingle slot h
  | optional =>
    cases slot with
    | none => exact .none
    | some v => exact .some (h v (mem_singleton_self v))
  | repeated =>
    exact forall₂_map_right_iff.2 (forall₂_same.2 h)

theorem SameSlot.refl {V : Type} {R : V → V → Prop} (hrefl : ∀ v, R v v) {k : Kind}
    (slot : Slot k V) : SameSlot R slot slot := by
  cases k with
  | required | defaulted => exact hrefl slot
  | optional =>
    cases slot with
    | none => exact .none
    | some v => exact .some (hrefl v)
  | repeated => exact forall₂_same.2 fun v _ => hrefl v

theorem SameResult.refl {V : Type} {R : V → V → Prop} (hrefl : ∀ v, R v v) (r : Except Stop V) :
    SameResult R r r := by
  cases r with
  | ok v => exact hrefl v
  | error e => rfl

theorem Same.refl (T : Ty) (v : T.Value) : Same T v v := by
  induction T with
  | scalar | binary | emptyStruct => rfl
  | message n h types ih => exact ⟨rfl, fun k => SameSlot.refl (ih k) _⟩
  | lazy n h types ih =>
    exact SameResult.refl (fun m => ⟨rfl, fun k => SameSlot.refl (ih k) _⟩) _

theorem SameMessage.asRead {n : ℕ} {h : Head n} {types : Fin n → Ty}
    {m : Fields h types} (hlen : (messageBytes h types m).length < 2 ^ 64)
    (hsame : ∀ k, ∀ v ∈ m.written h types k,
      ((types k).wire = .len → (valueBytes (types k) v).length < 2 ^ 64) →
      Same (types k) v (asRead (types k) v)) :
    SameMessage (fun k => Same (types k)) m (Proto.asRead (.message n h types) m) :=
  ⟨rfl, fun k => SameSlot.map (Same.refl (types k)) fun v hv =>
    hsame k v hv (length_lt_of_written hlen hv)⟩

/-- **What is read back is the same.** -/
theorem same_asRead {T : Ty} (hmodel : T.checkModel) {v : T.Value} (hsound : Sound T v)
    (hnests : Nests T depth v) (hlen : T.wire = .len → (valueBytes T v).length < 2 ^ 64) :
    Same T v (asRead T v) := by
  induction T generalizing depth with
  | scalar | binary | emptyStruct => rfl
  | message n h types ih =>
    exact SameMessage.asRead (length_lt_of_delimit (hlen rfl)) fun k v hv =>
      ih k (hmodel k).2 (hsound.2 k v hv) (hnests.2 k v hv)
  | lazy n h types ih =>
    cases v with
    | none => exact Same.refl (.lazy n h types) .none
    | region b => exact Same.refl (.lazy n h types) (.region b)
    | of m =>
      have hshort : (messageBytes h types m).length < 2 ^ 64 := length_lt_of_delimit (hlen rfl)
      obtain ⟨-, hnests⟩ := hnests m rfl
      -- it is decoded on its own, so the depth starts again
      obtain ⟨es, hes⟩ := (hsound m rfl).1
      have hm := legible hmodel hes (hsound m rfl).2
        (fun k v hv => (hnests k v hv).mono (zero_le _)) hshort
      change SameResult _ (.ok m) (protobufDecode h types _ (messageBytes h types m))
      rw [protobufDecode, readMessage, hm.readMessageWith]
      exact SameMessage.asRead hshort fun k v hv =>
        ih k (hmodel k).2 ((hsound m rfl).2 k v hv) (hnests k v hv)

section RoundTrip

variable {n : ℕ} {h : Head n} {types : Fin n → Ty} {m : Fields h types}

theorem protobuf_of_legible {es : List Entry}
    (hm : Legible h types (fun k => readLen (types k) 0) m es) :
    protobuf h types (messageBytes h types m) = .ok (asRead (.message n h types) m, []) :=
  bind_eq_ok.2 ⟨_, hm.readMessageWith, rfl⟩

/-- What the encoder has done if it has not failed. -/
theorem firstPass_of_encode {out : Bytes} {sink : VectorSink} {t : ℕ}
    (henc : protobufEncode h types m (⟨out⟩ : VectorSink) = (sink, .ok t)) :
    (∀ k, ∀ v ∈ m.written h types k, Nests (types k) 0 v) ∧
      sink.out = out ++ messageBytes h types m ∧ t = (messageBytes h types m).length := by
  cases hpass : firstPass h types m with
  | error e =>
    rw [protobufEncode, hpass] at henc
    cases henc
  | ok sizes =>
    rw [protobufEncode_vector m hpass] at henc
    cases henc
    exact ⟨(firstPass_eq_ok m hpass).2.1, rfl, rfl⟩

/-- **Encoding and decoding again gives the message.** What is written is
its bytes, in which every length is that of what is behind it. -/
theorem protobuf_protobufEncode (hmodel : (Ty.message n h types).checkModel)
    (hplain : Plain (.message n h types) m) {out : Bytes} {sink : VectorSink} {t : ℕ}
    (henc : protobufEncode h types m (⟨out⟩ : VectorSink) = (sink, .ok t))
    (hsize : sink.out.length < 2 ^ 64) :
    sink.out = out ++ messageBytes h types m ∧ t = (messageBytes h types m).length ∧
      ∃ m', protobuf h types (messageBytes h types m) = .ok (m', []) ∧
        Same (.message n h types) m m' := by
  obtain ⟨hnests, hout, ht⟩ := firstPass_of_encode henc
  have hlen : (messageBytes h types m).length < 2 ^ 64 := by
    rw [hout, length_append] at hsize
    omega
  obtain ⟨es, hes⟩ := hplain.sound.1
  have hm := legible hmodel hes hplain.sound.2 hnests hlen
  exact ⟨hout, ht, _, protobuf_of_legible hm, SameMessage.asRead hlen fun k v hv =>
    same_asRead (hmodel k).2 (hplain.sound.2 k v hv) (hnests k v hv)⟩

end RoundTrip

/-- A message that keeps another one for later. -/
def wrapper : Head 1 := .one "Wrapper" "later" .defaulted false

def wrapped (p : Bytes) : Message wrapper fun _ => (Ty.lazy 1 text fun _ => .binary).Value :=
  ⟨(), fun _ => .of (textOf p)⟩

theorem messageBytes_wrapped (p : Bytes) :
    messageBytes wrapper (fun _ => .lazy 1 text fun _ => .binary) (wrapped p)
      = varintBytes 10 ++ delimit (messageBytes text (fun _ => .binary) (textOf p)) := by
  rw [messageBytes, messageWith]
  simp [memberBytes, records, Slot.values, Ty.omitted, LazyValue.hasValue, wrapper, Head.one,
    wrapped, recordBytes, Unknown.bytes, finRange_succ]
  rfl

theorem protobuf_protobufEncode_wrapped : ∃ sink t m',
    protobufEncode wrapper (fun _ => .lazy 1 text fun _ => .binary) (wrapped [104, 105])
        (⟨[]⟩ : VectorSink) = (sink, .ok t) ∧
      protobuf wrapper (fun _ => .lazy 1 text fun _ => .binary) [10, 4, 10, 2, 104, 105]
        = .ok (m', []) ∧
      Same (.message 1 wrapper fun _ => .lazy 1 text fun _ => .binary) (wrapped [104, 105]) m' := by
  have hbytes : messageBytes wrapper (fun _ => .lazy 1 text fun _ => .binary) (wrapped [104, 105])
      = [10, 4, 10, 2, 104, 105] := by
    rw [messageBytes_wrapped, messageBytes_textOf (cons_ne_nil _ _)]
    simp [delimit, varintBytes, u64, Wire.uleb128Encode]
  obtain ⟨sizes, hpass⟩ := firstPass_of_short (wrapped [104, 105])
    (fun _ _ _ _ _ => ⟨by decide, fun _ _ _ => trivial⟩) (by rw [hbytes]; decide)
  have henc := protobufEncode_vector (wrapped [104, 105]) hpass []
  have hmodel : (Ty.message 1 wrapper fun _ => .lazy 1 text fun _ => .binary).checkModel :=
    fun _ => ⟨by simp [wrapper, Head.one], fun _ => ⟨by simp [text, Head.one], trivial⟩⟩
  have hplain : Plain (.message 1 wrapper fun _ => .lazy 1 text fun _ => .binary)
      (wrapped [104, 105]) := ⟨rfl, fun _ _ _ _ _ => ⟨rfl, fun _ _ _ => trivial⟩⟩
  obtain ⟨-, -, m', hm', hsame⟩ :=
    protobuf_protobufEncode hmodel hplain henc (by rw [hbytes]; decide)
  rw [hbytes] at hm'
  exact ⟨_, _, m', henc, hm', hsame⟩

end Nanom.Proto
