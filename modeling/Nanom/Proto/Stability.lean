import Nanom.Proto.RoundTrip

/-!
# Protobuf — what was decoded can be encoded and decoded again

Whatever the bytes were, what comes out of the decoder is read back as it is
(`Settled`): the enums fit, the unknown fields are records of no member, and what
is kept for later is bytes. This holds of an empty message, and a record keeps it
(`apply_settled`). An enum of an unsigned 32-bit integer is the exception: a
negative number is read into it, and what is written for it is no `int32`.
-/

namespace Nanom.Proto

open Nanom.Parser List Option
open Nanom.Tagged (VectorSink)

/-- No enum is an unsigned 32-bit integer, outside the messages that are kept
for later. -/
def Ty.enumsSettle : Ty → Prop
  | .scalar s => s ≠ .enum false .w32
  | .message _ _ types => ∀ k, (types k).enumsSettle
  | _ => True

/-- **What is read back as it is.** -/
structure Settled (T : Ty) (v : T.Value) : Prop where
  sound : Sound T v
  same : asRead T v = v

/-- A member that is read back as it is. -/
structure SettledSlot (T : Ty) (k : Kind) (slot : Slot k T.Value) : Prop where
  sound : ∀ v ∈ slot.values (T.omitted k), Sound T v
  same : slot.mapWritten (T.omitted k) (asRead T) = slot

/-! ## Scalars -/

section Scalars

theorem inRange_mono {w w' : ℕ} (hle : w ≤ w') {s : ℤ} (h : inRange w s) : inRange w' s := by
  have hpow : (2 : ℤ) ^ (w - 1) ≤ 2 ^ (w' - 1) := by
    exact_mod_cast Nat.pow_le_pow_right (n := 2) (by decide) (Nat.sub_le_sub_right hle 1)
  obtain ⟨hlo, hhi⟩ := h
  exact ⟨by omega, by omega⟩

theorem signedOf_of_lt {n : ℕ} (hn : n < 2 ^ 63) : signedOf n = n := by
  have hlt : (BitVec.ofNat 64 n).toNat = n := Nat.mod_eq_of_lt (by omega)
  rw [signedOf, BitVec.toInt_eq_toNat_of_lt (by rw [hlt]; omega), hlt]

theorem ofInt_signedOf_ofNat (v : ℕ) : BitVec.ofInt 64 (signedOf v) = BitVec.ofNat 64 v :=
  BitVec.ofInt_toInt

theorem Scalar.fits_of_ofVarint {signed : Bool} {w : Width} (hs : enum signed w ≠ .enum false .w32)
    {v : ℕ} (hv : inRange 32 (signedOf v)) :
    (enum signed w).Fits (BitVec.ofInt w.bits (signedOf v)) := by
  change inRange 32 (signedOf _)
  cases signed with
  | true =>
    rw [toVarint, signedOf_ofInt w.bits_le]
    cases w with
    | w8 | w16 => exact inRange_mono (by decide) (inRange_toInt _)
    | w32 => exact inRange_toInt _
    | w64 =>
      change inRange 32 (BitVec.ofInt 64 (signedOf v)).toInt
      rw [ofInt_signedOf_ofNat]
      exact hv
  | false =>
    have hsmall : ∀ (w : ℕ) (hw : w ≤ 16) (x : BitVec w), inRange 32 (signedOf x.toNat) := by
      intro w hw x
      have hlt : x.toNat < 2 ^ 16 := lt_of_lt_of_le x.isLt (Nat.pow_le_pow_right (by decide) hw)
      rw [signedOf_of_lt (by omega)]
      exact ⟨by omega, by omega⟩
    cases w with
    | w8 => exact hsmall 8 (by decide) _
    | w16 => exact hsmall 16 (by decide) _
    | w32 => exact absurd rfl hs
    | w64 =>
      change inRange 32 (signedOf (BitVec.ofInt 64 (signedOf v)).toNat)
      rw [ofInt_signedOf_ofNat, signedOf, BitVec.ofNat_toNat]
      exact hv

/-- **A scalar that was read fits.** -/
theorem fits_of_readScalar {s : Scalar} (hs : s ≠ .enum false .w32) {b rest : Bytes} {x : s.Value}
    (h : readScalar s b = .ok (x, rest)) : s.Fits x := by
  cases s with
  | enum signed w =>
    rcases readScalar_eq_ok.1 h with ⟨-, v, -, hx⟩ | ⟨hwire, -⟩
    · change (if inRange 32 (signedOf v) then some (BitVec.ofInt w.bits (signedOf v)) else none)
        = some x at hx
      split at hx
      · cases hx
        exact Scalar.fits_of_ofVarint hs ‹_›
      · cases hx
    · exact absurd rfl hwire
  | _ => trivial

end Scalars

/-! ## An empty message -/

theorem Scalar.fits_init (s : Scalar) : s.Fits s.init := by
  cases s with
  | enum signed w =>
    have hzero : inRange 32 (signedOf 0) := by decide
    cases signed <;> cases w <;> exact hzero
  | _ => trivial

theorem settledSlot_initial {T : Ty} (hT : T.isLazy = false → Settled T T.init) (k : Kind) :
    SettledSlot T k (Slot.initial T.init k) := by
  have hsingle : ∀ k : Kind, (∀ v ∈ (if T.omitted k T.init then [] else [T.init]), Sound T v) ∧
        (if T.omitted k T.init then T.init else asRead T T.init) = T.init := by
    intro k
    split
    · exact ⟨fun v hv => (nomatch hv), rfl⟩
    rename_i hom
    have hlazy : T.isLazy = false := by
      cases T with
      | lazy n h types => exact absurd rfl hom
      | _ => rfl
    refine ⟨fun v hv => ?_, (hT hlazy).same⟩
    rw [mem_singleton.1 hv]
    exact (hT hlazy).sound
  cases k with
  | required => exact ⟨(hsingle .required).1, (hsingle .required).2⟩
  | defaulted => exact ⟨(hsingle .defaulted).1, (hsingle .defaulted).2⟩
  | optional | repeated => exact ⟨fun v hv => (nomatch hv), rfl⟩

section Message

variable {n : ℕ} {h : Head n} {types : Fin n → Ty} {m m' : Fields h types}

theorem settled_message : Settled (.message n h types) m ↔
    (∃ es, Foreign h types m.unknown.bytes es) ∧
      ∀ k, SettledSlot (types k) (h.kind k) (m.members k) := by
  constructor
  · rintro ⟨⟨hes, hvalues⟩, hsame⟩
    exact ⟨hes, fun k => ⟨hvalues k, congrFun (congrArg Message.members hsame) k⟩⟩
  · rintro ⟨hes, hmembers⟩
    exact ⟨⟨hes, fun k => (hmembers k).sound⟩,
      congrArg (Message.mk m.unknown) (funext fun k => (hmembers k).same)⟩

end Message

theorem settled_init {T : Ty} (hT : T.isLazy = false) : Settled T T.init := by
  induction T with
  | scalar s => exact ⟨s.fits_init, rfl⟩
  | binary | emptyStruct => exact ⟨trivial, rfl⟩
  | message n h types ih =>
    refine settled_message.2 ⟨⟨[], ?_⟩, fun k => settledSlot_initial (ih k) (h.kind k)⟩
    change Foreign h types (Unknown.none h.unknown).bytes []
    rw [Unknown.bytes_none]
    exact foreign_nil
  | lazy n h types => cases hT

/-! ## What a record does -/

section Members

variable {T : Ty} {k : Kind} {slot : Slot k T.Value}

theorem SettledSlot.target (hslot : SettledSlot T k slot) (hT : T.isLazy = false) :
    Settled T (slot.target T.init) := by
  have hsingle : ∀ {k : Kind} (v : T.Value),
      (∀ x ∈ (if T.omitted k v then [] else [v]), Sound T x) →
      (if T.omitted k v then v else asRead T v) = v → Settled T v := by
    intro k v hsound hsame
    by_cases hom : T.omitted k v = true
    · rw [Ty.eq_init_of_omitted hom]
      exact settled_init hT
    · rw [if_neg hom] at hsound hsame
      exact ⟨hsound v (mem_singleton_self v), hsame⟩
  obtain ⟨hsound, hsame⟩ := hslot
  cases k with
  | required | defaulted => exact hsingle slot hsound hsame
  | optional =>
    cases slot with
    | none => exact settled_init hT
    | some v => exact ⟨hsound v (mem_singleton_self v), some.inj hsame⟩
  | repeated => exact settled_init hT

theorem SettledSlot.store (hslot : SettledSlot T k slot) {v : T.Value} (hv : Settled T v) :
    SettledSlot T k (slot.store v) := by
  have hsingle : ∀ {k : Kind}, (∀ x ∈ (if T.omitted k v then [] else [v]), Sound T x) ∧
      (if T.omitted k v then v else asRead T v) = v := by
    intro k
    split
    · exact ⟨fun x hx => (nomatch hx), rfl⟩
    · refine ⟨fun x hx => ?_, hv.same⟩
      rw [mem_singleton.1 hx]
      exact hv.sound
  obtain ⟨hsound, hsame⟩ := hslot
  cases k with
  | required | defaulted => exact ⟨hsingle.1, hsingle.2⟩
  | optional =>
    refine ⟨fun x hx => ?_, congrArg some hv.same⟩
    rw [mem_singleton.1 hx]
    exact hv.sound
  | repeated =>
    refine ⟨fun x hx => ?_, ?_⟩
    · change x ∈ concat slot v at hx
      rw [concat_eq_append] at hx
      rcases mem_append.1 hx with hx | hx
      · exact hsound x hx
      · rw [mem_singleton.1 hx]
        exact hv.sound
    · change List.map (asRead T) (concat slot v) = concat slot v
      rw [concat_eq_append, map_append, map_singleton, hv.same]
      exact congrArg (· ++ [v]) hsame

end Members

theorem settledSlot_repeated {s : Scalar} {xs : List s.Value} :
    SettledSlot (.scalar s) .repeated xs ↔ ∀ x ∈ xs, s.Fits x :=
  ⟨fun h => h.sound, fun h => ⟨h, map_id xs⟩⟩

/-- Into a settled value a settled one is read. -/
def ReadsSettled (T : Ty) (read : T.Value → Bytes → Except Stop T.Value) : Prop :=
  T.wire = .len → ∀ {out v : T.Value} {b : Bytes}, read out b = .ok v →
    (T.isLazy = false → Settled T out) → Settled T v

section Occurrence

variable {T : Ty} {k : Kind} {read : T.Value → Bytes → Except Stop T.Value}

theorem readOne_settled (henums : T.enumsSettle) (hread : ReadsSettled T read)
    {out v : T.Value} {b rest : Bytes} (h : readOne T k read out b = .ok (v, rest))
    (hout : T.isLazy = false → Settled T out) : Settled T v := by
  cases T with
  | scalar s => exact ⟨fits_of_readScalar henums h, rfl⟩
  | _ =>
    obtain ⟨region, -, -, hv⟩ := readDelimited_eq_ok.1 h
    exact hread rfl hv hout

/-- **An occurrence keeps a member settled.** -/
theorem occurrence_settled (henums : T.enumsSettle) (hread : ReadsSettled T read)
    {slot slot' : Slot k T.Value} (hslot : SettledSlot T k slot) {wt : ℕ} {b rest : Bytes}
    (h : occurrence T k read wt slot b = .ok (slot', rest)) : SettledSlot T k slot' := by
  have hinto : readInto T k read slot b = .ok (slot', rest) → SettledSlot T k slot' := by
    intro h
    obtain ⟨v, hv, rfl⟩ := readInto_eq_ok.1 h
    exact hslot.store (readOne_settled henums hread hv hslot.target)
  cases T with
  | scalar s =>
    cases k with
    | repeated =>
      change (if wt = s.wire.code then pushScalar s slot else readPacked s slot) b = _ at h
      rw [settledSlot_repeated] at hslot ⊢
      split at h
      · obtain ⟨x, hx, rfl⟩ := pushScalar_eq_ok.1 h
        intro y hy
        rcases mem_append.1 hy with hy | hy
        · exact hslot y hy
        · rw [mem_singleton.1 hy]
          exact fits_of_readScalar henums hx
      · obtain ⟨region, -, -, hys⟩ := readPacked_eq_ok.1 h
        obtain ⟨xs, hxs, rfl⟩ := toEnd_pushScalar.1 hys
        intro y hy
        rcases mem_append.1 hy with hy | hy
        · exact hslot y hy
        · obtain ⟨b', rest', hread⟩ := hxs.exists_of_mem hy
          exact fits_of_readScalar henums hread
    | required | defaulted | optional => exact hinto h
  | _ => cases k <;> exact hinto h

end Occurrence

section Message

variable {n : ℕ} {h : Head n} {types : Fin n → Ty} {read : Readers types} {m m' : Fields h types}

theorem reads_singleton {b rest : Bytes} {e : Entry} (he : entry b = .ok (e, rest)) :
    Reads entry e.bytes [e] := by
  obtain ⟨hkey, -⟩ := entry_eq_ok.1 he
  have hbytes : entry (e.bytes ++ rest) = .ok (e, rest) := by
    rw [Entry.bytes, append_assoc, ← hkey.split]
    exact he
  exact .cons (takes_entry.alone hbytes) .nil

theorem Foreign.keep {u : Unknown h.unknown} {es : List Entry} (hes : Foreign h types u.bytes es)
    {b rest : Bytes} {e : Entry} (he : entry b = .ok (e, rest))
    (hnone : h.accepting types e.id e.wt = none) :
    ∃ es', Foreign h types (u.keep e.bytes).bytes es' := by
  have hkeep : (u.keep e.bytes).bytes = u.bytes ++ e.bytes ∨ (u.keep e.bytes).bytes = [] := by
    generalize h.unknown = has at u
    cases has with
    | true => exact .inl rfl
    | false => exact .inr rfl
  rcases hkeep with hkeep | hkeep
  · refine ⟨es ++ [e], ?_, fun x hx => ?_⟩
    · rw [hkeep]
      exact (hes.reads.append_iff takes_entry).2 ⟨[e], reads_singleton he, rfl⟩
    · rcases mem_append.1 hx with hx | hx
      · exact hes.unaccepted x hx
      · rw [mem_singleton.1 hx]
        exact hnone
  · rw [hkeep]
    exact ⟨[], foreign_nil⟩

/-- **A record keeps a message settled.** -/
theorem apply_settled (henums : ∀ k, (types k).enumsSettle)
    (hread : ∀ k, ReadsSettled (types k) (read k)) {b rest : Bytes} {e : Entry}
    (he : entry b = .ok (e, rest)) (hm : Settled (.message n h types) m)
    (happly : e.apply h types read m = some m') : Settled (.message n h types) m' := by
  obtain ⟨⟨es, hes⟩, hmembers⟩ := settled_message.1 hm
  rw [Entry.apply] at happly
  cases hacc : h.accepting types e.id e.wt with
  | none =>
    rw [hacc] at happly
    cases happly
    exact settled_message.2 ⟨hes.keep he hacc, hmembers⟩
  | some k =>
    rw [hacc] at happly
    obtain ⟨slot, hslot, rfl⟩ := map_eq_some_iff.1 happly
    have hsettled := occurrence_settled (henums k) (hread k) (hmembers k) (whole_eq_some.1 hslot)
    refine settled_message.2 ⟨⟨es, hes⟩, fun j => ?_⟩
    by_cases hj : j = k
    · subst hj
      dsimp only
      rw [Function.update_self]
      exact hsettled
    · dsimp only
      rw [Function.update_of_ne hj]
      exact hmembers j

theorem applyAll_settled (henums : ∀ k, (types k).enumsSettle)
    (hread : ∀ k, ReadsSettled (types k) (read k))
    {b : Bytes} {es : List Entry} (hes : Reads entry b es) (hm : Settled (.message n h types) m)
    (happly : applyAll h types read m es = some m') : Settled (.message n h types) m' := by
  induction hes generalizing m with
  | nil =>
    cases happly
    exact hm
  | cons he _ ih =>
    obtain ⟨m₁, hm₁, happly⟩ := bind_eq_some_iff.1 happly
    exact ih (apply_settled henums hread he hm hm₁) happly

end Message

/-- **What was read is read back as it is.** -/
theorem readLen_settled {T : Ty} (henums : T.enumsSettle) (hwire : T.wire = .len) {depth : ℕ}
    {out v : T.Value} {b : Bytes} (hrun : readLen T depth out b = .ok v)
    (hout : T.isLazy = false → Settled T out) : Settled T v := by
  induction T generalizing depth b with
  | scalar s => rcases s.wire_cases with hs | hs | hs <;> rw [Ty.wire, hs] at hwire <;> cases hwire
  | binary | emptyStruct => exact ⟨trivial, rfl⟩
  | lazy n h types =>
    cases hrun
    exact ⟨fun m hm => (by cases hm), rfl⟩
  | message n h types ih =>
    rw [readLen] at hrun
    split at hrun
    · cases hrun
    · obtain ⟨es, hes, happly, -⟩ := readMessageWith_eq_ok.1 hrun
      exact applyAll_settled henums (fun k hwire {_ _ _} hread hout =>
        ih k (henums k) hwire hread hout) hes (hout rfl) happly

/-! ## Stability -/

section Stability

variable {n : ℕ} {h : Head n} {types : Fin n → Ty} {read : Readers types} {m m' : Fields h types}

/-- Whether a record is one of no member: its id is not declared, or its wire
type is another. -/
def Entry.foreign (h : Head n) (types : Fin n → Ty) (e : Entry) : Bool :=
  (h.accepting types e.id e.wt).isNone

theorem applyAll_unknown {es : List Entry} (happly : applyAll h types read m es = some m') :
    m'.unknown = (es.filter (Entry.foreign h types)).foldl (fun u e => u.keep e.bytes)
      m.unknown := by
  induction es generalizing m with
  | nil =>
    cases happly
    rfl
  | cons e es ih =>
    obtain ⟨m₁, hm₁, happly⟩ := bind_eq_some_iff.1 happly
    rw [ih happly]
    dsimp only at hm₁
    rw [Entry.apply] at hm₁
    cases hacc : h.accepting types e.id e.wt with
    | none =>
      rw [hacc] at hm₁
      cases hm₁
      rw [filter_cons_of_pos (by rw [Entry.foreign, hacc]; rfl)]
      rfl
    | some k =>
      rw [hacc] at hm₁
      obtain ⟨slot, -, rfl⟩ := map_eq_some_iff.1 hm₁
      rw [filter_cons_of_neg (by rw [Entry.foreign, hacc]; exact Bool.false_ne_true)]

/-- Some of the records of an input, on their own. -/
theorem reads_filter {b : Bytes} {es : List Entry} (hes : Reads entry b es) (p : Entry → Bool) :
    Reads entry ((es.filter p).flatMap Entry.bytes) (es.filter p) := by
  induction hes with
  | nil => exact .nil
  | @cons _ _ e es he _ ih =>
    rw [filter_cons]
    split
    · exact ((reads_singleton he).append_iff takes_entry).2 ⟨_, ih, rfl⟩
    · exact ih

theorem Unknown.bytes_keep_all {u : Bool} (hu : u = true) (es : List Entry) :
    (es.foldl (fun u e => u.keep e.bytes) (Unknown.none u)).bytes = es.flatMap Entry.bytes := by
  subst hu
  exact congrArg Unknown.bytes (Unknown.keep_all (u := true) (es.flatMap Entry.bytes) es rfl)

theorem filter_declared : (declared h types m).filter (Entry.foreign h types) = [] := by
  refine filter_eq_nil_iff.2 fun e he => ?_
  obtain ⟨k, -, he⟩ := mem_flatMap.1 he
  obtain ⟨r, hr, rfl⟩ := mem_map.1 he
  change ¬(h.accepting types (h.id k) r.1.code).isNone = true
  rw [h.accepting_id (accepts_of_mem_records hr)]
  exact Bool.false_ne_true

/-- **Decoding, encoding and decoding again**: what was decoded comes back,
and where unknown fields are kept, the records of no member are there again,
byte by byte and in their order. -/
theorem protobuf_stable (hmodel : (Ty.message n h types).checkModel)
    (henums : (Ty.message n h types).enumsSettle) {b : Bytes}
    (hdec : protobuf h types b = .ok (m, [])) {out : Bytes} {sink : VectorSink} {t : ℕ}
    (henc : protobufEncode h types m (⟨out⟩ : VectorSink) = (sink, .ok t))
    (hsize : sink.out.length < 2 ^ 64) :
    ∃ b₂, sink.out = out ++ b₂ ∧ protobuf h types b₂ = .ok (m, []) ∧
      (h.unknown = true → ∃ es es₂, Reads entry b es ∧ Reads entry b₂ es₂ ∧
        es₂.filter (Entry.foreign h types) = es.filter (Entry.foreign h types)) := by
  obtain ⟨m₁, hrun, hret⟩ := bind_eq_ok.1 hdec
  cases hret
  obtain ⟨es, hes, happly, -⟩ := readMessageWith_eq_ok.1 hrun
  have hsettled := applyAll_settled henums
    (fun k hwire {_ _ _} hread hout => readLen_settled (henums k) hwire hread hout) hes
    (settled_init (T := .message n h types) rfl) happly
  obtain ⟨hnests, hout, -⟩ := firstPass_of_encode henc
  have hlen : (messageBytes h types m).length < 2 ^ 64 := by
    rw [hout, length_append] at hsize
    omega
  have hback : ∀ {es'}, Foreign h types m.unknown.bytes es' →
      Legible h types (fun k => readLen (types k) 0) m es' :=
    fun hes' => legible hmodel hes' hsettled.sound.2 hnests hlen
  obtain ⟨es', hes'⟩ := hsettled.sound.1
  refine ⟨messageBytes h types m, hout, ?_, fun hunknown => ?_⟩
  · rw [protobuf_of_legible (hback hes'), hsettled.same]
  · -- the unknown fields of the message are just those records
    have hbytes : m.unknown.bytes
        = (es.filter (Entry.foreign h types)).flatMap Entry.bytes := by
      rw [applyAll_unknown happly]
      exact Unknown.bytes_keep_all hunknown _
    have hforeign : Foreign h types m.unknown.bytes (es.filter (Entry.foreign h types)) := by
      refine ⟨hbytes ▸ reads_filter hes _, fun e he => ?_⟩
      exact isNone_iff_eq_none.1 (mem_filter.1 he).2
    refine ⟨es, _, hes, (hback hforeign).reads, ?_⟩
    rw [filter_append, filter_declared]
    simp

end Stability

theorem ok_of_single {h : Head 1} {V : Fin 1 → Type} {m m' : Message h V}
    (hunknown : m.unknown = m'.unknown) (hmember : m.members 0 = m'.members 0) :
    (.ok (m, []) : Except Stop (Message h V × Bytes)) = .ok (m', []) := by
  obtain ⟨u, f⟩ := m
  obtain ⟨u', f'⟩ := m'
  have hf : f = f' := funext fun k => by
    obtain rfl := Fin.fin_one_eq_zero k
    exact hmember
  rw [hf, show u = u' from hunknown]

/-- Some numbers, and what was not known. -/
def numbersOf (xs : List (BitVec 32)) (u : Bytes) :
    Message numbers fun _ => (Ty.scalar (.int true .w32)).Value := ⟨u, fun _ => xs⟩

/-- `08 01 18 03` is written as `0a 01 01 18 03`. -/
theorem protobuf_stable_numbers : ∃ sink t,
    protobufEncode numbers (fun _ => .scalar (.int true .w32)) (numbersOf [1#32] [24, 3])
        (⟨[]⟩ : VectorSink) = (sink, .ok t) ∧
      ∃ b₂, sink.out = [] ++ b₂ ∧ protobuf numbers (fun _ => .scalar (.int true .w32)) [8, 1, 24, 3]
          = .ok (numbersOf [1#32] [24, 3], []) ∧
        protobuf numbers (fun _ => .scalar (.int true .w32)) b₂
          = .ok (numbersOf [1#32] [24, 3], []) := by
  have hpass : firstPass numbers (fun _ => .scalar (.int true .w32)) (numbersOf [1#32] [24, 3])
      = .ok [] := rfl
  have hkey : keyOf 1 .len = 10 := by decide
  have hbytes : messageBytes numbers (fun _ => .scalar (.int true .w32))
      (numbersOf [1#32] [24, 3]) = [10, 1, 1, 24, 3] := by
    have hrecords : messageBytes numbers (fun _ => .scalar (.int true .w32))
        (numbersOf [1#32] [24, 3])
          = varintBytes (keyOf 1 .len) ++ delimit (varintBytes 1 ++ []) ++ [] ++ [24, 3] := by
      rw [messageBytes, messageWith, show finRange 1 = [0] from rfl, flatMap_singleton]
      rfl
    rw [hrecords, hkey]
    simp [delimit, varintBytes, u64, Wire.uleb128Encode]
  have hmodel : (Ty.message 1 numbers fun _ => .scalar (.int true .w32)).checkModel :=
    fun _ => ⟨by simp [numbers, Head.one], trivial⟩
  have henums : (Ty.message 1 numbers fun _ => .scalar (.int true .w32)).enumsSettle :=
    fun _ => Scalar.noConfusion
  have hdec : protobuf numbers (fun _ => .scalar (.int true .w32)) [8, 1, 24, 3]
      = .ok (numbersOf [1#32] [24, 3], []) := ok_of_single rfl rfl
  have henc := protobufEncode_vector (numbersOf [1#32] [24, 3]) hpass []
  obtain ⟨b₂, hout, hback, -⟩ := protobuf_stable hmodel henums hdec henc (by rw [hbytes]; decide)
  exact ⟨_, _, henc, b₂, hout, hdec, hback⟩

/-- A message of one enum, under the id 1. -/
def level : Head 1 := .one "Level" "level" .defaulted false

def levelOf (v : BitVec 32) : Message level fun _ => (Ty.scalar (.enum false .w32)).Value :=
  ⟨(), fun _ => v⟩

/-- An enum of an unsigned 32-bit integer: −1 is read as `0xffffffff`, which
is written as such, and that is not an `int32`. -/
theorem unsigned_enum_unstable : protobuf level (fun _ => .scalar (.enum false .w32))
        [8, 255, 255, 255, 255, 255, 255, 255, 255, 255, 1]
      = .ok (levelOf 0xffffffff#32, []) ∧
    protobufEncode level (fun _ => .scalar (.enum false .w32)) (levelOf 0xffffffff#32)
        (⟨[]⟩ : VectorSink)
      = (⟨[8, 255, 255, 255, 255, 15]⟩, .ok 6) ∧
    protobuf level (fun _ => .scalar (.enum false .w32)) [8, 255, 255, 255, 255, 15]
      = .error (.failed ⟨"an enum value that fits int32", 0⟩) := by
  have hpass : firstPass level (fun _ => .scalar (.enum false .w32)) (levelOf 0xffffffff#32)
      = .ok [] := rfl
  have hkey : keyOf 1 .varint = 8 := by decide
  have hbytes : messageBytes level (fun _ => .scalar (.enum false .w32)) (levelOf 0xffffffff#32)
      = [8, 255, 255, 255, 255, 15] := by
    have hrecords : messageBytes level (fun _ => .scalar (.enum false .w32))
        (levelOf 0xffffffff#32)
          = varintBytes (keyOf 1 .varint) ++ varintBytes 0xffffffff ++ [] ++ [] := by
      rw [messageBytes, messageWith, show finRange 1 = [0] from rfl, flatMap_singleton]
      rfl
    rw [hrecords, hkey]
    simp [varintBytes, u64, Wire.uleb128Encode]
    decide
  refine ⟨ok_of_single rfl rfl, ?_, rfl⟩
  rw [protobufEncode_vector _ hpass, hbytes]
  rfl

end Nanom.Proto
