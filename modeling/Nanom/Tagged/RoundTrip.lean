import Nanom.Tagged.Levels
import Nanom.Tagged.Writer

/-!
# Thrift compact — written and read back

`bytesOf` is what a value is on the wire, without a writer. The encoder appends it
(`writeValue_appends`), and the decoder reads it as the same value
(`reads_bytesOf`). A value has to be one that can be written (`Writable`: the
lengths, and no message missing) and one that can be read (`Fits`: the depth).
-/

namespace Nanom.Tagged

open Writer (err raw u8)

open Nanom.Parser List Wire Function

variable {et left n type w : ℕ}

/-! ## The bytes of a value -/

/-- The header of a list. -/
def listHeaderBytes (n et : ℕ) : Bytes :=
  if n < 15 then [UInt8.ofNat (n <<< 4 ||| et)]
  else UInt8.ofNat (0xf0 ||| et) :: Wire.uleb128Encode n

/-- The header of a field. -/
def fieldHeaderBytes (last id type : ℕ) : Bytes :=
  let delta : ℤ := id - last
  if 1 ≤ delta ∧ delta ≤ 15 then [UInt8.ofNat (delta.toNat <<< 4 ||| type)]
  else UInt8.ofNat type :: Wire.uleb128Encode (Wire.zigzagEncode (BitVec.ofNat 16 id)).toNat

/-- What is behind the header of a field. -/
def memberBytes (T : Ty) (bytes : T.Value → Bytes) (v : T.Value) : Bytes :=
  match T, bytes, v with
  | .bool, _, _ => []
  | _, bytes, v => bytes v

section Struct

variable {n : ℕ} (h : Head n) (types : Fin n → Ty) (bytes : (k : Fin n) → (types k).Value → Bytes)
  (m : Fields h types)

/-- The fields of a struct behind one with the id `last`, and the end of
the struct. -/
def fieldsBytes : ℕ → List (Fin n) → Bytes
  | _, [] => [0]
  | last, k :: ks =>
    match (m k).get? with
    | none => fieldsBytes last ks
    | some v => fieldHeaderBytes last (h.id k) (fieldType (types k) v) ++
        (memberBytes (types k) (bytes k) v ++ fieldsBytes (h.id k) ks)

/-- A struct. -/
def structBytes : Bytes := fieldsBytes h types bytes m 0 (List.finRange n)

end Struct

/-- **The bytes of a value.** -/
def bytesOf : (T : Ty) → T.Value → Bytes
  | .bool, (v : Bool) => [cond v 1 2]
  | .i8, v => [UInt8.ofBitVec v]
  | .i16, v => Wire.uleb128Encode (Wire.zigzagEncode (v : BitVec 16)).toNat
  | .i32, v => Wire.uleb128Encode (Wire.zigzagEncode (v : BitVec 32)).toNat
  | .i64, v => Wire.uleb128Encode (Wire.zigzagEncode (v : BitVec 64)).toNat
  | .dbl, v => leBytes 8 (v : BitVec 64).toNat
  | .enum, v => Wire.uleb128Encode (Wire.zigzagEncode (v : BitVec 32)).toNat
  | .binary, (v : Bytes) => Wire.uleb128Encode v.length ++ v
  | .vector E, (xs : List E.Value) =>
    listHeaderBytes xs.length E.typeOf.code ++ xs.flatMap (bytesOf E)
  | .list E, (l : ListValue E.Value) =>
    match l with
    | .of xs => listHeaderBytes xs.length E.typeOf.code ++ xs.flatMap (bytesOf E)
    | .wire region count elemWire _ =>
      listHeaderBytes count (if count ≠ 0 then elemWire else E.typeOf.code) ++ region
  | .lazy _ h types, (l : LazyValue (Fields h types)) =>
    match l with
    | .of m => structBytes h types (fun k => bytesOf (types k)) m
    | .wire region _ => region
  | .emptyStruct, _ => [0]
  | .message _ h types, m => structBytes h types (fun k => bytesOf (types k)) m

/-- **What can be written**: the lengths are within `i32`, and every
message is set. -/
def Writable : (T : Ty) → T.Value → Prop
  | .binary, (v : Bytes) => v.length ≤ i32Max
  | .vector E, (xs : List E.Value) => xs.length ≤ i32Max ∧ ∀ x ∈ xs, Writable E x
  | .list E, (l : ListValue E.Value) =>
    match l with
    | .of xs => xs.length ≤ i32Max ∧ ∀ x ∈ xs, Writable E x
    | .wire _ count _ _ => count ≤ i32Max
  | .lazy _ _ types, (l : LazyValue (Record _ fun k => (types k).Value)) =>
    match l with
    | .of m => ∀ k v, (m k).get? = some v → Writable (types k) v
    | .wire region _ => region ≠ []
  | .message _ _ types, (m : Record _ fun k => (types k).Value) =>
    ∀ k v, (m k).get? = some v → Writable (types k) v
  | _, _ => True

/-- **What can be read** with `left` levels: the depth of lists and messages
is within the limit. What was kept as bytes is, at the depth it was kept at
and here, what the decoder keeps of such a field. -/
def Fits : (T : Ty) → ℕ → T.Value → Prop
  | .vector E, left, (xs : List E.Value) => left ≠ 0 ∧ ∀ x ∈ xs, Fits E (left - 1) x
  | .list E, left, (l : ListValue E.Value) => left ≠ 0 ∧
      match l with
      | .of xs => ∀ x ∈ xs, Fits E (left - 1) x
      | .wire region count elemWire own =>
        (count ≠ 0 → wireOk E.typeOf elemWire = true) ∧
          skipElems (skip own) ⟨count, elemWire⟩ region = .ok ((), []) ∧
          skipElems (skip (left - 1)) ⟨count, elemWire⟩ region = .ok ((), [])
  | .lazy _ _ types, left, (l : LazyValue (Record _ fun k => (types k).Value)) =>
    match l with
    | .of m => left - 1 ≠ 0 ∧ ∀ k v, (m k).get? = some v → Fits (types k) (left - 1) v
    | .wire region own =>
      skipStruct own region = .ok ((), []) ∧ skipStruct (left - 1) region = .ok ((), [])
  | .emptyStruct, left, _ => left - 1 ≠ 0
  | .message _ _ types, left, (m : Record _ fun k => (types k).Value) =>
    left - 1 ≠ 0 ∧ ∀ k v, (m k).get? = some v → Fits (types k) (left - 1) v
  | _, _, _ => True

/-! ## What the encoder appends -/

/-- The encoder appends some bytes, where nothing has failed. -/
def Appends (f : Encoder Direct → Encoder Direct) (p : Bytes) : Prop :=
  ∀ s, s.w.err = none → (f s).w = ⟨s.w.out ++ p, none⟩

section Appends

theorem appends_add (p : Bytes) : Appends (fun s => s.on (Direct.add p)) p :=
  fun _ hs => Direct.add_of_none hs p

theorem appends_nil : Appends (fun s => s) [] := by
  intro s hs
  rw [append_nil, ← hs]

theorem Appends.comp {f g : Encoder Direct → Encoder Direct} {p q : Bytes} (hf : Appends f p)
    (hg : Appends g q) : Appends (fun s => g (f s)) (p ++ q) := by
  intro s hs
  have hfs := hf s hs
  have hgs := hg (f s) (by rw [hfs])
  rw [hfs] at hgs
  rw [hgs, append_assoc]

theorem appends_foldl {α : Type} {f : Encoder Direct → α → Encoder Direct} {b : α → Bytes}
    {l : List α} (hf : ∀ a ∈ l, Appends (fun s => f s a) (b a)) :
    Appends (fun s => l.foldl f s) (l.flatMap b) := by
  induction l with
  | nil => exact appends_nil
  | cons a l ih =>
    exact (hf a mem_cons_self).comp (ih (forall_mem_cons.1 hf).2)

theorem appends_varint {v : ℕ} (hv : v < 2 ^ 64) :
    Appends (fun s => s.on (Writer.varint v)) (uleb128Encode v) := by
  have hadd := appends_add (uleb128Encode (u64 v))
  nth_rewrite 2 [show u64 v = v from Nat.mod_eq_of_lt hv] at hadd
  exact hadd

theorem appends_zigzag (hw : w ≤ 64) (v : BitVec w) :
    Appends (fun s => s.on (Writer.varint (zigzagEncode v).toNat))
      (uleb128Encode (zigzagEncode v).toNat) :=
  appends_varint
    (lt_of_lt_of_le (zigzagEncode v).isLt (Nat.pow_le_pow_right (by decide) hw))

theorem lt_of_le_i32Max (h : n ≤ i32Max) : n < 2 ^ 64 := lt_of_le_of_lt h (by decide)

theorem appends_binary {v : Bytes} (hv : v.length ≤ i32Max) :
    Appends (fun s => s.on (writeBinary v)) (uleb128Encode v.length ++ v) := by
  have hwrite : (fun s : Encoder Direct => s.on (writeBinary v))
      = fun s => (s.on (Writer.varint v.length)).on (raw v) := by
    funext s
    rw [Encoder.on, writeBinary, if_neg (not_lt.2 hv)]
    rfl
  rw [hwrite]
  exact (appends_varint (lt_of_le_i32Max hv)).comp (appends_add v)

theorem appends_listHeader (hn : n ≤ i32Max) (et : ℕ) :
    Appends (fun s => s.on (listHeader n et)) (listHeaderBytes n et) := by
  unfold listHeaderBytes
  split
  · rename_i hshort
    have hwrite : (fun s : Encoder Direct => s.on (listHeader n et))
        = fun s => s.on (u8 (UInt8.ofNat (n <<< 4 ||| et))) := by
      funext s
      rw [Encoder.on, listHeader, if_neg (not_lt.2 hn), if_pos hshort]
      rfl
    rw [hwrite]
    exact appends_add _
  · rename_i hlong
    have hwrite : (fun s : Encoder Direct => s.on (listHeader n et))
        = fun s => (s.on (u8 (UInt8.ofNat (0xf0 ||| et)))).on (Writer.varint n) := by
      funext s
      rw [Encoder.on, listHeader, if_neg (not_lt.2 hn), if_neg hlong]
      rfl
    rw [hwrite]
    exact (appends_add [_]).comp (appends_varint (lt_of_le_i32Max hn))

theorem appends_fieldHeader (last id type : ℕ) :
    Appends (fun s => s.on (fieldHeader last id type)) (fieldHeaderBytes last id type) := by
  unfold fieldHeaderBytes fieldHeader
  dsimp only
  split
  · exact appends_add _
  · exact (appends_add [_]).comp (appends_zigzag (by decide) _)

end Appends

section Struct

variable {n : ℕ} {h : Head n} {types : Fin n → Ty} {bytes : (k : Fin n) → (types k).Value → Bytes}
  {write : (k : Fin n) → (types k).Value → Encoder Direct → Encoder Direct} {m : Fields h types}

theorem appends_member {T : Ty} {bytes : T.Value → Bytes}
    {write : T.Value → Encoder Direct → Encoder Direct} {v : T.Value}
    (hv : Appends (write v) (bytes v)) :
    Appends (writeMember T write v) (memberBytes T bytes v) := by
  cases T with
  | bool => exact appends_nil
  | _ => exact hv

theorem appends_fields (ks : List (Fin n))
    (hwrite : ∀ k v, (m k).get? = some v → Appends (write k v) (bytes k v))
    (s : Encoder Direct × ℕ) (hs : s.1.w.err = none) :
    (ks.foldl (writeField h types write m) s).1.w.err = none ∧
      (ks.foldl (writeField h types write m) s).1.w.out ++ [0]
        = s.1.w.out ++ fieldsBytes h types bytes m s.2 ks := by
  induction ks generalizing s with
  | nil => exact ⟨hs, rfl⟩
  | cons k ks ih =>
    have hnone : ¬(err s.1.w).isSome := Option.not_isSome_iff_eq_none.2 hs
    rw [foldl_cons, writeField, if_neg hnone, fieldsBytes]
    cases hk : (m k).get? with
    | none => exact ih ({ s.1 with field := h.field k }, s.2) hs
    | some v =>
      have happ := (appends_fieldHeader s.2 (h.id k) (fieldType (types k) v)).comp
        (appends_member (hwrite k v hk)) { s.1 with field := h.field k } hs
      obtain ⟨herr, hout⟩ := ih (writeMember (types k) (write k) v
        ({ s.1 with field := h.field k }.on
          (fieldHeader s.2 (h.id k) (fieldType (types k) v))), h.id k) (by rw [happ])
      refine ⟨herr, hout.trans ?_⟩
      rw [happ]
      simp only [append_assoc]

theorem appends_struct (hwrite : ∀ k v, (m k).get? = some v → Appends (write k v) (bytes k v)) :
    Appends (writeStructWith h types write m) (structBytes h types bytes m) := by
  intro s hs
  obtain ⟨herr, hout⟩ := appends_fields (finRange n) hwrite
    ({ s with message := h.name }, 0) hs
  rw [writeStructWith]
  generalize ((finRange n).foldl (writeField h types write m)
    ({ s with message := h.name }, 0)).1 = e at herr hout
  have hnone : ¬(err e.w).isSome := Option.not_isSome_iff_eq_none.2 herr
  rw [if_neg hnone, structBytes, ← hout]
  exact Direct.add_of_none herr [0]

end Struct

variable (T : Ty) (v : T.Value)

/-- **The encoder appends the bytes of a value.** -/
theorem writeValue_appends (hv : Writable T v) : Appends (writeValue T v) (bytesOf T v) := by
  induction T with
  | bool | i8 => exact appends_add _
  | i16 | i32 | i64 | enum => exact appends_zigzag (by decide) _
  | dbl => exact appends_add _
  | binary => exact appends_binary hv
  | vector E ih =>
    exact (appends_listHeader hv.1 _).comp (appends_foldl fun x hx => ih x (hv.2 x hx))
  | list E ih =>
    cases v with
    | of xs => exact (appends_listHeader hv.1 _).comp (appends_foldl fun x hx => ih x (hv.2 x hx))
    | wire region count elemWire own => exact (appends_listHeader hv _).comp (appends_add region)
  | lazy n h types ih =>
    cases v with
    | of m => exact appends_struct fun k v hk => ih k v (hv k v hk)
    | wire region own =>
      have hwrite : writeValue (.lazy n h types)
          (.wire region own : LazyValue (Fields h types))
          = fun s : Encoder Direct => s.on (raw region) := by
        funext s
        exact if_pos hv
      rw [hwrite]
      exact appends_add region
  | emptyStruct => exact appends_add [0]
  | message n h types ih => exact appends_struct fun k v hk => ih k v (hv k v hk)

/-! ## What the decoder reads -/

section Headers

theorem toNat_nibbles : ∀ a < 16, ∀ b < 16,
    (UInt8.ofNat (a <<< 4 ||| b)).toNat >>> 4 = a ∧
      (UInt8.ofNat (a <<< 4 ||| b)).toNat &&& 0x0f = b := by
  decide +kernel

theorem varint32_uleb128Encode {v : ℕ} (hv : v ≤ i32Max) (rest : Bytes) :
    varint32 (uleb128Encode v ++ rest) = .ok (v, rest) := by
  refine bind_eq_ok.2 ⟨(v, rest), varint_uleb128Encode (lt_of_le_i32Max hv) rest, ?_⟩
  exact if_neg (not_lt.2 (le_trans hv (by decide)))

theorem zigzag_uleb128Encode (hw : 0 < w) (hle : w ≤ 64) (v : BitVec w) (rest : Bytes) :
    zigzag w (uleb128Encode (zigzagEncode v).toNat ++ rest) = .ok (v, rest) := by
  have hlt : (zigzagEncode v).toNat < 2 ^ 64 :=
    lt_of_lt_of_le (zigzagEncode v).isLt (Nat.pow_le_pow_right (by decide) hle)
  refine bind_eq_ok.2 ⟨(_, rest), varint_uleb128Encode hlt rest, ?_⟩
  dsimp only
  have hlow := BitVec.le_toInt v
  have hhigh := BitVec.toInt_lt (x := v)
  rw [zigzagDecode_ofNat_zigzagEncode hw hle, if_neg (by omega), BitVec.ofInt_toInt]

theorem readDouble_bytes (v : BitVec 64) (rest : Bytes) :
    readDouble (leBytes 8 v.toNat ++ rest) = .ok (v, rest) := by
  refine bind_eq_ok.2 ⟨(leBytes 8 v.toNat, rest), span_eq_ok.2 ⟨rfl, length_leBytes 8 _⟩, ?_⟩
  have hlt : v.toNat < 256 ^ 8 := v.isLt
  dsimp only
  rw [leNat_leBytes, Nat.mod_eq_of_lt hlt, BitVec.ofNat_toNat, BitVec.setWidth_eq]

theorem binary_bytes {v : Bytes} (hv : v.length ≤ i32Max) (rest : Bytes) :
    binary (uleb128Encode v.length ++ v ++ rest) = .ok (v, rest) := by
  rw [append_assoc]
  refine bind_eq_ok.2 ⟨(v.length, v ++ rest), varint32_uleb128Encode hv _, ?_⟩
  exact span_eq_ok.2 ⟨rfl, rfl⟩

theorem listHead_bytes (hn : n ≤ i32Max) (het : et < 16) (rest : Bytes) :
    listHead (listHeaderBytes n et ++ rest) = .ok (⟨n, et⟩, rest) := by
  rw [listHeaderBytes]
  split
  · obtain ⟨hhigh, hlow⟩ := toNat_nibbles n (by omega) et het
    refine bind_eq_ok.2 ⟨(_, rest), rfl, bind_eq_ok.2 ⟨(n, rest), ?_, ?_⟩⟩
    · rw [listCount, hhigh, if_neg (by omega)]
    · rw [hlow]
  · obtain ⟨hhigh, hlow⟩ := toNat_nibbles 15 (by decide) et het
    refine bind_eq_ok.2 ⟨(_, uleb128Encode n ++ rest), rfl, bind_eq_ok.2 ⟨(n, rest), ?_, ?_⟩⟩
    · rw [listCount, show (0xf0 : ℕ) = 15 <<< 4 from rfl, hhigh]
      exact varint32_uleb128Encode hn rest
    · rw [show (0xf0 : ℕ) = 15 <<< 4 from rfl, hlow]

/-- The header of a field: a byte that is not the end, and the id behind it. -/
theorem fieldHeader_bytes (last : ℕ) {id : ℕ} (hid : id ≤ 32767) (htype : type < 16)
    (hpos : type ≠ 0) : ∃ hb tail, fieldHeaderBytes last id type = hb :: tail ∧ hb ≠ 0 ∧
      hb.toNat &&& 0x0f = type ∧ ∀ rest, fieldId last hb (tail ++ rest) = .ok ((id : ℤ), rest) := by
  have hne : ∀ {hb : UInt8}, hb.toNat &&& 0x0f = type → hb ≠ 0 := by
    rintro hb hlow rfl
    exact hpos hlow.symm
  rw [fieldHeaderBytes]
  split
  · obtain ⟨d, hd⟩ := Int.eq_ofNat_of_zero_le (a := (id : ℤ) - last) (by omega)
    rw [hd, Int.toNat_natCast]
    obtain ⟨hhigh, hlow⟩ := toNat_nibbles d (by omega) type htype
    refine ⟨_, [], rfl, hne hlow, hlow, fun rest => ?_⟩
    rw [fieldId, if_neg (by omega), if_neg (by omega)]
    congr 3
    omega
  · obtain ⟨hhigh, hlow⟩ := toNat_nibbles 0 (by decide) type htype
    rw [Nat.zero_shiftLeft, Nat.zero_or] at hhigh hlow
    refine ⟨_, _, rfl, hne hlow, hlow, fun rest => ?_⟩
    rw [fieldId, hhigh]
    refine bind_eq_ok.2 ⟨(_, rest), zigzag_uleb128Encode (by decide) (by decide) _ rest, ?_⟩
    dsimp only
    rw [BitVec.toInt_eq_toNat_of_lt (by rw [BitVec.toNat_ofNat]; omega), BitVec.toNat_ofNat,
      Nat.mod_eq_of_lt (by omega)]

theorem slotOf_id (h : Head n) (k : Fin n) : h.slotOf (h.id k) = some k := by
  refine find?_eq_some_iff_getElem.2 ⟨decide_eq_true rfl, k, by simp, by simp, fun j hj => ?_⟩
  simpa [Int.natCast_inj] using (h.ascending ⟨j, hj.trans k.isLt⟩ k hj).ne

end Headers

/-- **What is read back**: the same value, with the same bytes, which can be
written again. -/
structure Back (T : Ty) (v v' : T.Value) : Prop where
  same : Same T v v'
  bytes : bytesOf T v' = bytesOf T v
  writable : Writable T v'

/-- The bytes of a value are read back. -/
def ReadBack (T : Ty) : Prop :=
  ∀ ⦃left : ℕ⦄ ⦃v : T.Value⦄ (rest : Bytes), Writable T v → Fits T left v →
    ∃ v', readValue T left T.init (bytesOf T v ++ rest) = .ok (v', rest) ∧ Back T v v'

section Members

theorem wireOk_fieldType : wireOk T.typeOf (fieldType T v) = true := by
  cases T with
  | bool => cases v <;> rfl
  | _ => exact wireOk_code _

theorem wireOk_lt {e : CType} (h : wireOk e type = true) : type < 16 := by
  rcases wireOk_iff.1 h with ⟨-, rfl | rfl⟩ | ⟨-, rfl | rfl⟩ | ⟨-, -, rfl⟩
  · decide
  · decide
  · decide
  · decide
  · exact CType.code_lt e

theorem fieldType_of_ne {T : Ty} (hT : T ≠ .bool) (v : T.Value) :
    fieldType T v = T.typeOf.code := by
  cases T with
  | bool => exact absurd rfl hT
  | _ => rfl

theorem fieldType_bounds : fieldType T v < 16 ∧ fieldType T v ≠ 0 := by
  by_cases hT : T = .bool
  · subst hT
    cases v <;> decide
  · rw [fieldType_of_ne hT]
    refine ⟨CType.code_lt _, ?_⟩
    cases T <;> exact Nat.succ_ne_zero _

theorem fieldType_of_same {T : Ty} {v v' : T.Value} (h : Same T v v') :
    fieldType T v' = fieldType T v := by
  cases T with
  | bool => rw [show v = v' from h]
  | _ => rfl

theorem memberBytes_of_eq {T : Ty} {bytes : T.Value → Bytes} {v v' : T.Value}
    (h : bytes v' = bytes v) : memberBytes T bytes v' = memberBytes T bytes v := by
  cases T with
  | bool => rfl
  | _ => exact h

theorem ReadBack.member {T : Ty} (hT : ReadBack T) {v : T.Value} (rest : Bytes)
    (hv : Writable T v) (hf : Fits T left v) :
    ∃ v', readMember T (readValue T left) (fieldType T v) T.init
      (memberBytes T (bytesOf T) v ++ rest) = .ok (v', rest) ∧ Back T v v' := by
  by_cases hbool : T = .bool
  · subst hbool
    refine ⟨v, ?_, rfl, rfl, trivial⟩
    cases v <;> rfl
  have hbytes : memberBytes T (bytesOf T) v = bytesOf T v := by
    cases T with
    | bool => exact absurd rfl hbool
    | _ => rfl
  rw [readMember_of_ne hbool, hbytes]
  exact hT rest hv hf

end Members

section Elements

variable {E : Ty}
variable {xs xs' : List E.Value}

theorem ReadBack.times (hE : ReadBack E) (rest : Bytes)
    (hw : ∀ x ∈ xs, Writable E x) (hf : ∀ x ∈ xs, Fits E left x) :
    ∃ xs', Parser.times (readValue E left E.init) xs.length (xs.flatMap (bytesOf E) ++ rest)
      = .ok (xs', rest) ∧ List.Forall₂ (Back E) xs xs' := by
  induction xs with
  | nil => exact ⟨[], rfl, .nil⟩
  | cons x xs ih =>
    obtain ⟨xs', htimes, hall⟩ := ih (forall_mem_cons.1 hw).2
      (forall_mem_cons.1 hf).2
    obtain ⟨x', hx', hback⟩ := hE (xs.flatMap (bytesOf E) ++ rest)
      (hw x mem_cons_self) (hf x mem_cons_self)
    refine ⟨x' :: xs', ?_, .cons hback hall⟩
    rw [flatMap_cons, append_assoc]
    exact times_succ_eq_ok.2 ⟨x', _, xs', hx', htimes, rfl⟩

section

variable (h : List.Forall₂ (Back E) xs xs')
include h

theorem same_of_back : List.Forall₂ (Same E) xs xs' := h.imp fun _ _ hb => hb.same

theorem flatMap_of_back : xs'.flatMap (bytesOf E) = xs.flatMap (bytesOf E) := by
  induction h with
  | nil => rfl
  | cons hx _ ih => rw [flatMap_cons, flatMap_cons, ih, hx.bytes]

theorem writable_of_back : ∀ x ∈ xs', Writable E x := by
  induction h with
  | nil => exact fun x hx => nomatch hx
  | cons hx _ ih =>
    intro y hy
    rcases mem_cons.1 hy with rfl | hy
    · exact hx.writable
    · exact ih y hy

end

/-- The header of a list whose elements are behind it. -/
theorem readListOf_bytes {elem : CType} {rest : Bytes} (hn : n ≤ i32Max)
    (het : et < 16) (hok : n ≠ 0 → wireOk elem et = true) (hleft : left ≠ 0)
    (hlen : n * minElemBytes et ≤ rest.length) :
    readListOf elem left (listHeaderBytes n et ++ rest) = .ok (⟨n, et⟩, rest) :=
  readListOf_eq_ok.2 ⟨readListHeader_eq_ok.2 ⟨listHead_bytes hn het rest, hlen⟩, hok, hleft⟩

/-- The elements of a list behind their header. -/
theorem ReadBack.elements (hE : ReadBack E) (rest : Bytes)
    (hn : xs.length ≤ i32Max) (hw : ∀ x ∈ xs, Writable E x) (hleft : left ≠ 0)
    (hf : ∀ x ∈ xs, Fits E (left - 1) x) :
    ∃ xs', readListOf E.typeOf left
        (listHeaderBytes xs.length E.typeOf.code ++ xs.flatMap (bytesOf E) ++ rest)
        = .ok (⟨xs.length, E.typeOf.code⟩, xs.flatMap (bytesOf E) ++ rest) ∧
      Parser.times (readValue E (left - 1) E.init) xs.length (xs.flatMap (bytesOf E) ++ rest)
        = .ok (xs', rest) ∧ List.Forall₂ (Back E) xs xs' := by
  obtain ⟨xs', htimes, hall⟩ := hE.times rest hw hf
  obtain ⟨pre, hpre, hlen, -⟩ := takes_times (readValue_takes E (left - 1) E.init) _ htimes
  refine ⟨xs', ?_, htimes, hall⟩
  rw [append_assoc]
  refine readListOf_bytes hn (CType.code_lt _) (fun _ => wireOk_code _) hleft ?_
  rw [hpre, length_append]
  omega

/-- A list whose bytes were kept is kept again. -/
theorem readList_kept (rest : Bytes) (hE : ReadAt E) {count elemWire own : ℕ} {region : Bytes}
    (hn : count ≤ i32Max) (hleft : left ≠ 0) (hf : (count ≠ 0 → wireOk E.typeOf elemWire = true) ∧
      skipElems (skip own) ⟨count, elemWire⟩ region = .ok ((), []) ∧
      skipElems (skip (left - 1)) ⟨count, elemWire⟩ region = .ok ((), [])) :
    ∃ l', readValue (.list E) left (Ty.init (.list E))
        (bytesOf (.list E) (.wire region count elemWire own : ListValue E.Value) ++ rest)
        = .ok (l', rest) ∧
      Back (.list E) (.wire region count elemWire own : ListValue E.Value) l' := by
  obtain ⟨hok, hown, hhere⟩ := hf
  have htakes := takes_skipElems (skips_skip (left - 1))
  by_cases hzero : count = 0
  · subst hzero
    obtain ⟨us, htimes⟩ := skipElems_eq_ok.1 hhere
    cases htimes
    have hhead : readListOf E.typeOf left (listHeaderBytes 0 E.typeOf.code ++ rest)
        = .ok (⟨0, E.typeOf.code⟩, rest) :=
      readListOf_bytes hn (CType.code_lt _) (fun _ => wireOk_code _) hleft
        (by rw [Nat.zero_mul]; exact Nat.zero_le _)
    exact ⟨_, readList_eq_ok.2 ⟨_, _, [], hhead,
      (cut_eq_ok (htakes _)).2 ⟨rfl, (), skipElems_eq_ok.2 ⟨[], rfl⟩⟩, rfl⟩,
      alike_ok .nil, rfl, hn⟩
  · have hbytes : bytesOf (.list E) (.wire region count elemWire own : ListValue E.Value) ++ rest
        = listHeaderBytes count elemWire ++ (region ++ rest) := by
      rw [bytesOf, if_pos hzero, append_assoc]
    have hlen := (htakes _).length_le hhere
    have hhead : readListOf E.typeOf left (listHeaderBytes count elemWire ++ (region ++ rest))
        = .ok (⟨count, elemWire⟩, region ++ rest) := by
      refine readListOf_bytes hn (wireOk_lt (hok hzero)) hok hleft ?_
      rw [length_append]
      dsimp only at hlen
      omega
    rw [hbytes]
    exact ⟨_, readList_eq_ok.2 ⟨_, _, region, hhead,
      (cut_eq_ok (htakes _)).2 ⟨rfl, (), (htakes _).of_whole (whole_eq_some.2 hhere) rest⟩, rfl⟩,
      hE.kept hok hown hhere, rfl, hn⟩

theorem ReadBack.vector (hE : ReadBack E) : ReadBack (.vector E) := by
  intro left xs rest hw hf
  obtain ⟨xs', hhead, htimes, hall⟩ := hE.elements rest hw.1 hw.2 hf.1 hf.2
  have hlen := hall.length_eq
  refine ⟨xs', readVector_eq_ok.2 ⟨_, _, hhead, htimes⟩, same_of_back hall, ?_,
    hlen ▸ hw.1, writable_of_back hall⟩
  change listHeaderBytes xs'.length E.typeOf.code ++ xs'.flatMap (bytesOf E)
    = listHeaderBytes (List.length xs) E.typeOf.code ++ List.flatMap (bytesOf E) xs
  rw [flatMap_of_back hall, hlen]

theorem ReadBack.list (hE : ReadBack E) : ReadBack (.list E) := by
  intro left l rest hw hf
  obtain ⟨hleft, hf⟩ := hf
  cases l with
  | of xs =>
    obtain ⟨xs', hhead, htimes, hall⟩ := hE.elements rest hw.1 hw.2 hleft hf
    have hfollow := fun _ : xs.length ≠ 0 =>
      readValue_follows E (left - 1) E.typeOf.code E.init (wireOk_code _)
    have hskip := skipElems_of_times hhead
      (fun hok => readValue_follows E (left - 1) _ E.init hok) htimes
    have hregion := (takes_times (readValue_takes E (left - 1) E.init) _).alone htimes
    refine ⟨_, readList_eq_ok.2 ⟨_, _, _, hhead,
      (cut_eq_ok (takes_skipElems (skips_skip _) _)).2 ⟨rfl, (), hskip⟩, rfl⟩, ?_, ?_, hw.1⟩
    · have hvec : (ListValue.wire _ _ E.typeOf.code _).Holds E.readElem xs' :=
        holds_of_times hfollow hregion
      change Alike _ _ _
      rw [hvec.toVector]
      exact alike_ok (same_of_back hall)
    · dsimp only [bytesOf]
      rw [ite_self]
  | wire region count elemWire own =>
    exact readList_kept rest (readValue_at E) hw hleft hf

end Elements

section Message

variable {n : ℕ} {h : Head n} {types : Fin n → Ty}

section

variable {m m' : Fields h types} (hback : ∀ k, Option.Rel (Back (types k)) (m k).get? (m' k).get?)
include hback

theorem fieldsBytes_of_back (last : ℕ)
    (ks : List (Fin n)) : fieldsBytes h types (fun k => bytesOf (types k)) m' last ks
      = fieldsBytes h types (fun k => bytesOf (types k)) m last ks := by
  induction ks generalizing last with
  | nil => rfl
  | cons k ks ih =>
    rw [fieldsBytes, fieldsBytes]
    have hk := hback k
    generalize (m k).get? = v, (m' k).get? = v' at hk
    cases hk with
    | none => exact ih last
    | some hv =>
      dsimp only
      rw [fieldType_of_same hv.same, memberBytes_of_eq hv.bytes, ih]

theorem writable_members : ∀ k v, (m' k).get? = some v → Writable (types k) v := by
  intro k v hv
  have hk := hback k
  rw [hv] at hk
  generalize (m k).get? = u at hk
  cases hk with
  | some hback => exact hback.writable

theorem same_members : ∀ k, Option.Rel (Same (types k)) (m k).get? (m' k).get? := by
  intro k
  have hk := hback k
  generalize (m k).get? = u, (m' k).get? = u' at hk
  cases hk with
  | some hback => exact .some hback.same
  | none => exact .none

end

/-- The fields of a struct: each is read into a member that nothing was
read into before. -/
theorem loop_fieldsBytes (hT : ∀ k, ReadBack (types k)) {m : Fields h types}
    (hw : ∀ k v, (m k).get? = some v → Writable (types k) v)
    (hf : ∀ k v, (m k).get? = some v → Fits (types k) left v) (rest : Bytes) {ks : List (Fin n)}
    (hnodup : ks.Nodup) {last : ℕ} {s : Scan n (Fields h types)}
    (hlast : s.last = last) (hinit : ∀ k ∈ ks, s.value k = Slot.initial (types k).init (h.kind k)) :
    ∃ s', loop (structField h (fun k => (types k).typeOf) left
        (readMembers h types fun k => readValue (types k) left))
        (.failed ⟨.truncated, 0, 1, none⟩) .unfinished s
        (fieldsBytes h types (fun k => bytesOf (types k)) m last ks ++ rest) = .ok (s', rest) ∧
      (∀ k ∉ ks, s'.value k = s.value k ∧ s'.seen k = s.seen k) ∧
      ∀ k ∈ ks, Option.Rel (Back (types k)) (m k).get? (s'.value k).get? ∧
        ((m k).get?.isSome → s'.seen k = true) := by
  induction ks generalizing last s with
  | nil => exact ⟨s, loop_zero s rest, fun k _ => ⟨rfl, rfl⟩, fun k hk => nomatch hk⟩
  | cons k ks ih =>
    obtain ⟨hk, hnodup⟩ := nodup_cons.1 hnodup
    rw [fieldsBytes]
    cases hget : (m k).get? with
    | none =>
      obtain ⟨s', hloop, hout, hin⟩ := ih hnodup hlast fun j hj =>
        hinit j (mem_cons_of_mem k hj)
      refine ⟨s', hloop, fun j hj => hout j fun hmem => hj (mem_cons_of_mem k hmem), ?_⟩
      intro j hj
      rcases mem_cons.1 hj with rfl | hj
      · rw [hget, (hout j hk).1, hinit j mem_cons_self, Slot.initial_of_none hget]
        exact ⟨.none, fun hsome => nomatch hsome⟩
      · exact hin j hj
    | some v =>
      obtain ⟨hlt, hne⟩ := fieldType_bounds (types k) v
      obtain ⟨hb, tail, hhead, hb0, htype, hid⟩ := fieldHeader_bytes last (h.id_le k) hlt hne
      obtain ⟨v', hv', hback⟩ := (hT k).member
        (fieldsBytes h types (fun k => bytesOf (types k)) m (h.id k) ks ++ rest)
        (hw k v hget) (hf k v hget)
      obtain ⟨s', hloop, hout, hin⟩ := ih hnodup (s := ⟨h.id k, update s.seen k true,
          update s.value k (Slot.put (h.kind k) v')⟩) rfl fun j hj => by
          have hjk : j ≠ k := fun hjk => hk (hjk ▸ hj)
          exact (update_of_ne hjk _ _).trans (hinit j (mem_cons_of_mem k hj))
      have hfield : structField h (fun k => (types k).typeOf) left
          (readMembers h types fun k => readValue (types k) left) s hb
          (tail ++ (memberBytes (types k) (bytesOf (types k)) v ++
            (fieldsBytes h types (fun k => bytesOf (types k)) m (h.id k) ks ++ rest)))
          = .ok (⟨h.id k, update s.seen k true, update s.value k (Slot.put (h.kind k) v')⟩,
            fieldsBytes h types (fun k => bytesOf (types k)) m (h.id k) ks ++ rest) := by
        refine structField_eq_ok.2 ⟨h.id k, _, by rw [hlast]; exact hid _, .inl
          ⟨k, _, slotOf_id h k, ?_, readMembers_eq_ok.2 ⟨v', ?_, rfl⟩, rfl⟩⟩
        · rw [htype]
          exact wireOk_fieldType (types k) v
        · rw [htype, hinit k mem_cons_self, Slot.getD_initial]
          exact hv'
      refine ⟨s', ?_, ?_, ?_⟩
      · dsimp only
        rw [hhead, append_assoc, append_assoc]
        exact loop_cons (takes_structField (readStruct_takes h types left)) hb0 hfield hloop
      · intro j hj
        have hjk : j ≠ k := fun hjk => hj (hjk ▸ mem_cons_self)
        obtain ⟨hvalue, hseen⟩ := hout j fun hmem => hj (mem_cons_of_mem k hmem)
        exact ⟨hvalue.trans (update_of_ne hjk _ _), hseen.trans (update_of_ne hjk _ _)⟩
      · intro j hj
        rcases mem_cons.1 hj with rfl | hj
        · obtain ⟨hvalue, hseen⟩ := hout j hk
          rw [hget, hvalue.trans (update_self _ _ _), Slot.get?_put]
          exact ⟨.some hback, fun _ => hseen.trans (update_self _ _ _)⟩
        · exact hin j hj

/-- The bytes of a struct are read back. -/
theorem readStruct_bytes (hT : ∀ k, ReadBack (types k)) (hleft : left ≠ 0)
    {m : Fields h types} (hw : ∀ k v, (m k).get? = some v → Writable (types k) v)
    (hf : ∀ k v, (m k).get? = some v → Fits (types k) left v) (rest : Bytes) :
    ∃ m', readStruct h types left (Ty.init (.message n h types))
        (structBytes h types (fun k => bytesOf (types k)) m ++ rest) = .ok (m', rest) ∧
      ∀ k, Option.Rel (Back (types k)) (m k).get? (m' k).get? := by
  obtain ⟨s, hloop, -, hall⟩ := loop_fieldsBytes hT hw hf rest (nodup_finRange n)
    (s := ⟨0, fun _ => false, Ty.init (.message n h types)⟩) rfl fun k _ => rfl
  refine ⟨s.value, structWith_eq_ok.2 ⟨hleft, s, hloop, ?_, rfl⟩,
    fun k => (hall k (mem_finRange k)).1⟩
  refine decide_eq_true fun k hk => (hall k (mem_finRange k)).2 ?_
  exact Slot.isSome_of_required hk (m k)

theorem ReadBack.lazy (hT : ∀ k, ReadBack (types k)) : ReadBack (.lazy n h types) := by
  intro left l rest hw hf
  cases l with
  | of m =>
    obtain ⟨m', hread, hback⟩ := readStruct_bytes hT hf.1 hw hf.2 rest
    obtain ⟨u, hskip⟩ := readStruct_follows h types (left - 1) _ hread
    have hlen := (takes_skipStruct (left - 1)).length_le
      ((takes_skipStruct (left - 1)).alone hskip)
    have hdecode : (LazyValue.wire (structBytes h types (fun k => bytesOf (types k)) m)
        (left - 1)).decode (readMessage h types) = .ok m' :=
      bind_eq_ok.2
        ⟨(m', []), (takes_structWith (readStruct_takes h types _) _).alone hread, rfl⟩
    have hsame : Same (.lazy n h types)
        (.of m : LazyValue (Fields h types))
        (.wire (structBytes h types (fun k => bytesOf (types k)) m) (left - 1) :
          LazyValue (Fields h types)) := by
      rw [Same]
      beta_reduce
      rw [hdecode]
      exact alike_ok (same_members hback)
    refine ⟨_, readLazy_eq_ok.2 ⟨structBytes h types (fun k => bytesOf (types k)) m,
      (cut_eq_ok (takes_skipStruct _)).2 ⟨rfl, u, hskip⟩, rfl⟩, hsame, rfl, ?_⟩
    exact ne_nil_of_length_pos hlen
  | wire region own =>
    have hcut : cut (skipStruct (left - 1)) (region ++ rest) = .ok (region, rest) :=
      (cut_eq_ok (takes_skipStruct _)).2
        ⟨rfl, (), (takes_skipStruct _).of_whole (whole_eq_some.2 hf.2) rest⟩
    exact ⟨_, readLazy_eq_ok.2 ⟨region, hcut, rfl⟩,
      same_lazy (fun k => readValue_at (types k)) hf.1 hf.2, rfl, hw⟩

theorem ReadBack.message (hT : ∀ k, ReadBack (types k)) : ReadBack (.message n h types) := by
  intro left m rest hw hf
  obtain ⟨m', hread, hback⟩ := readStruct_bytes hT hf.1 hw hf.2 rest
  exact ⟨m', hread, same_members hback, fieldsBytes_of_back hback 0 _, writable_members hback⟩

end Message

/-- **The bytes of a value are read back**, whatever is behind them. -/
theorem reads_bytesOf : ReadBack T := by
  induction T with
  | bool =>
    intro left v rest _ _
    refine ⟨v, ?_, rfl, rfl, trivial⟩
    cases v <;> rfl
  | i8 => exact fun left v rest _ _ => ⟨v, rfl, rfl, rfl, trivial⟩
  | i16 | i32 | i64 | enum =>
    intro left v rest _ _
    exact ⟨v, zigzag_uleb128Encode (by decide) (by decide) v rest, rfl, rfl, trivial⟩
  | dbl =>
    intro left v rest _ _
    exact ⟨v, readDouble_bytes v rest, rfl, rfl, trivial⟩
  | binary => exact fun left v rest hv _ => ⟨v, binary_bytes hv rest, rfl, rfl, hv⟩
  | vector E ih => exact ih.vector
  | list E ih => exact ih.list
  | lazy n h types ih => exact .lazy ih
  | emptyStruct =>
    intro left v rest _ hf
    refine ⟨(), ?_, trivial, rfl, trivial⟩
    change skipStruct (left - 1) (0 :: rest) = _
    rw [skipStruct, skipStructWith, if_neg hf]
    exact loop_zero () rest
  | message n h types ih => exact .message ih

section Message

variable {n : ℕ} {h : Head n} {types : Fin n → Ty}

theorem encoding_bytes {m : Fields h types} (hm : Writable (.message n h types) m) :
    encoding h types m = ⟨bytesOf (.message n h types) m, none⟩ :=
  writeValue_appends (.message n h types) m hm ⟨⟨[], none⟩, "", ""⟩ rfl

/-- **What was encoded is decoded**, to the last byte and as the same
message, and this is encoded as the same bytes. -/
theorem thriftCompact_thriftCompactEncode {m : Fields h types} (out : Bytes)
    (hw : Writable (.message n h types) m) (hf : Fits (.message n h types) (maxTaggedDepth + 2) m) :
    ∃ bytes m', thriftCompactEncode h types m (⟨out⟩ : VectorSink)
        = (⟨out ++ bytes⟩, .ok bytes.length) ∧
      thriftCompact h types bytes = .ok (m', []) ∧ Same (.message n h types) m m' ∧
      thriftCompactEncode h types m' (⟨out⟩ : VectorSink) = (⟨out ++ bytes⟩, .ok bytes.length) := by
  obtain ⟨m', hread, hback⟩ := reads_bytesOf (.message n h types) [] hw hf
  rw [append_nil] at hread
  refine ⟨bytesOf (.message n h types) m, m', ?_, hread, hback.same, ?_⟩
  · exact thriftCompactEncode_vector h types m (encoding_bytes hw) out
  · refine thriftCompactEncode_vector h types m' ?_ out
    rw [encoding_bytes hback.writable, hback.bytes]

end Message

/-- Two lists in a message that is set by the caller. -/
def outerMessage : Record outerHead fun _ => (Ty.lazy 2 pairHead fun _ => .vector .i32).Value :=
  fun _ => LazyValue.of (V := Record pairHead fun _ => List (BitVec 32))
    fun k => some (if k.val = 0 then [5#32, 7#32] else [])

/-- They are read back. -/
theorem thriftCompact_outerMessage :
    ∃ bytes m', thriftCompactEncode outerHead (fun _ => .lazy 2 pairHead fun _ => .vector .i32)
        outerMessage (⟨[]⟩ : VectorSink) = (⟨[] ++ bytes⟩, .ok bytes.length) ∧
      thriftCompact outerHead (fun _ => .lazy 2 pairHead fun _ => .vector .i32) bytes
        = .ok (m', []) ∧
      Same (.message 1 outerHead fun _ => .lazy 2 pairHead fun _ => .vector .i32) outerMessage m' ∧
      thriftCompactEncode outerHead (fun _ => .lazy 2 pairHead fun _ => .vector .i32) m'
        (⟨[]⟩ : VectorSink) = (⟨[] ++ bytes⟩, .ok bytes.length) := by
  refine thriftCompact_thriftCompactEncode [] ?_ ?_
  · intro k v hv
    cases hv
    intro j xs hxs
    match j, hxs with
    | 0, hxs | 1, hxs => cases hxs; exact ⟨by decide, fun _ _ => trivial⟩
  · refine ⟨by decide, fun k v hv => ?_⟩
    cases hv
    refine ⟨by decide, fun j xs hxs => ?_⟩
    match j, hxs with
    | 0, hxs | 1, hxs => cases hxs; exact ⟨by decide, fun _ _ => trivial⟩

end Nanom.Tagged
