import Nanom.Proto.Varint

/-!
# Protobuf — a message as its records

What `read_message` does is said here in two steps: the input is cut into records,
and these are read into the message one by one. `readRecord` reads runs of
unpacked values ahead, which makes no difference (`toEnd_readRecord`). From this
follows what decoding a concatenation does (`protobufDecode_append`).
-/

namespace Nanom.Proto

open Nanom.Parser List Function Option

variable {b rest x : Bytes} {V α : Type}
variable {fuel v : ℕ} {key p : Bytes} {s : Scalar} {why : String}

/-! ## The bytes that are taken -/

theorem span_eq_ok {n : ℕ} :
    span n why b = .ok (x, rest) ↔ b = x ++ rest ∧ x.length = n := chunk_eq_ok

theorem takes_span (n : ℕ) (why : String) : Takes n (span n why) := takes_chunk _ n

theorem delimited_eq_ok :
    delimited why b = .ok (x, rest) ↔ readVarint b = .ok (x.length, x ++ rest) := by
  constructor
  · intro h
    obtain ⟨⟨n, p⟩, hn, hspan⟩ := bind_eq_ok.1 h
    obtain ⟨rfl, rfl⟩ := span_eq_ok.1 hspan
    exact hn
  · intro h
    exact bind_eq_ok.2 ⟨(x.length, x ++ rest), h, span_eq_ok.2 ⟨rfl, rfl⟩⟩

theorem takes_delimited (why : String) : Takes 1 (delimited why) := by
  intro b x rest h
  obtain ⟨pre, hpre, hlen, hall⟩ := takes_readVarint (delimited_eq_ok.1 h)
  refine ⟨pre ++ x, by rw [hpre, append_assoc], ?_, fun r => ?_⟩
  · rw [length_append]
    omega
  · rw [append_assoc]
    exact delimited_eq_ok.2 (hall _)

theorem takes_skipValue (wt : ℕ) : Takes 1 (skipValue wt) := by
  unfold skipValue
  split
  · exact takes_discard takes_readVarint
  · exact (takes_discard (takes_span 8 _)).mono (by decide)
  · exact (takes_discard (takes_span 4 _)).mono (by decide)
  · exact takes_discard (takes_delimited _)
  · exact takes_error _ 1

/-! ## One occurrence of a field -/

section Occurrence

theorem checked_eq_ok {f : ℕ → Option α} {x : α} :
    checked why f b = .ok (x, rest) ↔ ∃ v, readVarint b = .ok (v, rest) ∧ f v = some x := by
  constructor
  · intro h
    obtain ⟨v, p, hv, hret⟩ := read_eq_ok.1 h
    dsimp only at hret
    split at hret
    · rename_i hf
      cases hret
      exact ⟨v, hv, hf⟩
    · cases hret
  · rintro ⟨v, hv, hf⟩
    refine read_eq_ok.2 ⟨v, rest, hv, ?_⟩
    dsimp only
    rw [hf]

theorem takes_checked (why : String) (f : ℕ → Option α) : Takes 1 (checked why f) := by
  intro b x rest h
  obtain ⟨v, hv, hf⟩ := checked_eq_ok.1 h
  obtain ⟨pre, hpre, hlen, hall⟩ := takes_readVarint hv
  exact ⟨pre, hpre, hlen, fun r => checked_eq_ok.2 ⟨v, hall r, hf⟩⟩

theorem readScalar_eq_ok {x : s.Value} :
    readScalar s b = .ok (x, rest) ↔
      (s.wire = .varint ∧ ∃ v, readVarint b = .ok (v, rest) ∧ s.ofVarint v = some x) ∨
      (s.wire ≠ .varint ∧ ∃ u, b = u ++ rest ∧ u.length = s.width ∧ x = s.ofBits (leNat u)) := by
  rw [readScalar]
  by_cases hwire : s.wire = .varint
  · rw [if_pos hwire, checked_eq_ok]
    simp [hwire]
  · rw [if_neg hwire]
    refine (map_eq_ok (g := fun u => s.ofBits (leNat u))).trans ?_
    simp [hwire, span_eq_ok, and_assoc]

theorem takes_readScalar (s : Scalar) : Takes 1 (readScalar s) := by
  have hpos : 1 ≤ s.width := by
    rw [Scalar.width]
    split <;> decide
  rw [readScalar]
  split
  · exact takes_checked _ _
  · exact ((takes_span s.width s.expected).map fun u => s.ofBits (leNat u)).mono hpos

/-- A scalar is skipped by its wire type. -/
theorem follows_readScalar (s : Scalar) : Follows (skipValue s.wire.code) (readScalar s) := by
  intro b x rest h
  refine ⟨(), ?_⟩
  rcases readScalar_eq_ok.1 h with ⟨hwire, v, hv, -⟩ | ⟨hwire, u, hb, hlen, -⟩
  · rw [hwire]
    exact discard_eq_ok.2 ⟨v, hv⟩
  rcases s.wire_cases with h | h | h
  · exact absurd h hwire
  · rw [h]
    exact discard_eq_ok.2 ⟨u, span_eq_ok.2 ⟨hb, by rw [hlen, Scalar.width, if_pos h]⟩⟩
  · rw [h]
    exact discard_eq_ok.2 ⟨u, span_eq_ok.2 ⟨hb, by rw [hlen, Scalar.width, h]; rfl⟩⟩

theorem pushScalar_eq_ok {xs ys : List s.Value} :
    pushScalar s xs b = .ok (ys, rest) ↔
      ∃ x, readScalar s b = .ok (x, rest) ∧ ys = xs ++ [x] := map_eq_ok (g := fun x => xs ++ [x])

theorem within_eq_ok {r : Except Stop α} {a : α} : within rest r = .ok a ↔ r = .ok a := by
  cases r with
  | error e => exact ⟨fun h => (nomatch h), fun h => (nomatch h)⟩
  | ok b => exact Iff.rfl

theorem readPacked_eq_ok {xs ys : List s.Value} :
    readPacked s xs b = .ok (ys, rest) ↔
      ∃ region, delimited "a packed field that fits the message" b = .ok (region, rest) ∧
        region.length % packedWidth s = 0 ∧
        toEnd (pushScalar s) .unfinished xs region = .ok ys := by
  constructor
  · intro h
    obtain ⟨region, p, hregion, h⟩ := read_eq_ok.1 h
    obtain ⟨hmod, h⟩ := check_eq_ok.1 h
    obtain ⟨zs, hzs, hret⟩ := bind_eq_ok.1 h
    cases hret
    exact ⟨region, hregion, not_not.1 hmod, within_eq_ok.1 hzs⟩
  · rintro ⟨region, hregion, hmod, hys⟩
    exact read_eq_ok.2 ⟨region, rest, hregion, check_eq_ok.2
      ⟨not_not.2 hmod, bind_eq_ok.2 ⟨ys, within_eq_ok.2 hys, rfl⟩⟩⟩

theorem readDelimited_eq_ok {read : V → Bytes → Except Stop V} {occupied : V → Bool}
    {out v : V} : readDelimited read occupied out b = .ok (v, rest) ↔
      ∃ region, delimited fitting b = .ok (region, rest) ∧ occupied out = false ∧
        read out region = .ok v := by
  constructor
  · intro h
    obtain ⟨region, p, hregion, h⟩ := read_eq_ok.1 h
    obtain ⟨hocc, h⟩ := check_eq_ok.1 h
    obtain ⟨w, hw, hret⟩ := bind_eq_ok.1 h
    cases hret
    exact ⟨region, hregion, Bool.eq_false_iff.2 hocc, within_eq_ok.1 hw⟩
  · rintro ⟨region, hregion, hocc, hv⟩
    exact read_eq_ok.2 ⟨region, rest, hregion, check_eq_ok.2
      ⟨Bool.eq_false_iff.1 hocc, bind_eq_ok.2 ⟨v, within_eq_ok.2 hv, rfl⟩⟩⟩

/-- What is read from the bytes of a length-delimited value takes these, and
is skipped as such. -/
theorem takes_of_delimited {p : Read V} {P : Bytes → V → Prop}
    (hp : ∀ b v rest, p b = .ok (v, rest) ↔
      ∃ region, delimited why b = .ok (region, rest) ∧ P region v) :
    Takes 1 p ∧ Follows (skipValue 2) p := by
  constructor
  · intro b v rest h
    obtain ⟨region, hregion, hP⟩ := (hp _ _ _).1 h
    obtain ⟨pre, hpre, hlen, hall⟩ := takes_delimited why hregion
    exact ⟨pre, hpre, hlen, fun r => (hp _ _ _).2 ⟨region, hall r, hP⟩⟩
  · intro b v rest h
    obtain ⟨region, hregion, -⟩ := (hp _ _ _).1 h
    exact ⟨(), discard_eq_ok.2 ⟨region, delimited_eq_ok.2 (delimited_eq_ok.1 hregion)⟩⟩

/-- Whether a field of a wire type is one of the member's. -/
def accepts (T : Ty) (k : Kind) (wt : ℕ) : Bool :=
  match T, k with
  | .scalar s, .repeated => wt == s.wire.code || wt == WireType.code .len
  | T, _ => wt == T.wire.code

/-- One occurrence of a field that is accepted, without the run it may
start. -/
def occurrence (T : Ty) (k : Kind) (read : T.Value → Bytes → Except Stop T.Value) (wt : ℕ)
    (slot : Slot k T.Value) : Read (Slot k T.Value) :=
  match T, k, read, slot with
  | .scalar s, .repeated, _, xs => if wt = s.wire.code then pushScalar s xs else readPacked s xs
  | T, k, read, slot => readInto T k read slot

/-- Whether an occurrence starts a run. -/
def runs (T : Ty) (k : Kind) (wt : ℕ) : Bool :=
  match T, k with
  | .scalar s, .repeated => wt == s.wire.code
  | _, _ => false

/-- The run of an occurrence: more of them, behind the same key. -/
def again (T : Ty) (k : Kind) (read : T.Value → Bytes → Except Stop T.Value) (wt : ℕ)
    (key : Bytes) : ℕ → Slot k T.Value → Read (Slot k T.Value)
  | fuel, slot, b =>
    if runs T k wt ∧ key.length < b.length ∧ key.isPrefixOf b then
      match fuel with
      | 0 => .error .unfinished
      | fuel + 1 => do
          let (slot, b) ← occurrence T k read wt slot (b.drop key.length)
          again T k read wt key fuel slot b
    else .ok (slot, b)

variable {T : Ty} {k : Kind} {wt : ℕ} (read : T.Value → Bytes → Except Stop T.Value)
variable {slot : Slot k T.Value}

theorem readOne_takes (out : T.Value) :
    Takes 1 (readOne T k read out) ∧ Follows (skipValue T.wire.code) (readOne T k read out) := by
  cases T with
  | scalar s => exact ⟨takes_readScalar s, follows_readScalar s⟩
  | _ => exact takes_of_delimited fun b v rest => readDelimited_eq_ok

variable {read} in
theorem readInto_eq_ok {slot' : Slot k T.Value} :
    readInto T k read slot b = .ok (slot', rest) ↔
      ∃ v, readOne T k read (slot.target T.init) b = .ok (v, rest) ∧ slot' = slot.store v :=
  map_eq_ok

theorem readInto_takes (slot : Slot k T.Value) :
    Takes 1 (readInto T k read slot) ∧
      Follows (skipValue T.wire.code) (readInto T k read slot) := by
  obtain ⟨htakes, hfollows⟩ := readOne_takes read (slot.target T.init)
  refine ⟨htakes.map slot.store, fun b slot' rest h => ?_⟩
  obtain ⟨v, hv, -⟩ := readInto_eq_ok.1 h
  exact hfollows hv

theorem repeated_takes (s : Scalar) (xs : List s.Value)
    (hok : accepts (.scalar s) .repeated wt = true) :
    Takes 1 (if wt = s.wire.code then pushScalar s xs else readPacked s xs) ∧
      Follows (skipValue wt) (if wt = s.wire.code then pushScalar s xs else readPacked s xs) := by
  by_cases hwire : wt = s.wire.code
  · rw [if_pos hwire, hwire]
    refine ⟨(takes_readScalar s).map fun x => xs ++ [x], fun b ys rest h => ?_⟩
    obtain ⟨x, hx, -⟩ := pushScalar_eq_ok.1 h
    exact follows_readScalar s hx
  · have hlen : wt = 2 := by
      rcases (Bool.or_eq_true _ _).mp hok with h | h
      · exact absurd (beq_iff_eq.1 h) hwire
      · exact beq_iff_eq.1 h
    rw [if_neg hwire, hlen]
    exact takes_of_delimited fun b ys rest => readPacked_eq_ok

/-- **An occurrence takes its bytes**, and they are those a reader that does
not know the field skips. -/
theorem occurrence_takes (slot : Slot k T.Value) (hok : accepts T k wt = true) :
    Takes 1 (occurrence T k read wt slot) ∧
      Follows (skipValue wt) (occurrence T k read wt slot) := by
  have hinto : (wt == T.wire.code) = true → Takes 1 (readInto T k read slot) ∧
      Follows (skipValue wt) (readInto T k read slot) := by
    intro hwt
    rw [beq_iff_eq.1 hwt]
    exact readInto_takes read slot
  cases T with
  | scalar s =>
    cases k with
    | repeated => exact repeated_takes s slot hok
    | required | defaulted | optional => exact hinto hok
  | _ => cases k <;> exact hinto hok

theorem again_stop (hno : ¬(runs T k wt = true ∧ key.length < b.length ∧ key.isPrefixOf b = true)) :
    again T k read wt key fuel slot b = .ok (slot, b) := by
  unfold again
  exact if_neg hno

theorem again_succ (hgo : runs T k wt = true ∧ key.length < b.length ∧ key.isPrefixOf b = true) :
    again T k read wt key (fuel + 1) slot b = occurrence T k read wt slot (b.drop key.length) >>=
      fun x => again T k read wt key fuel x.1 x.2 := by
  exact if_pos hgo

theorem again_of_runs (hruns : runs T k wt = false) (key : Bytes) (fuel : ℕ)
    (slot : Slot k T.Value) (b : Bytes) : again T k read wt key fuel slot b = .ok (slot, b) := by
  refine again_stop read ?_
  rintro ⟨h, -⟩
  rw [hruns] at h
  cases h

theorem readRun_eq_again (s : Scalar) (read : s.Value → Bytes → Except Stop s.Value) (key : Bytes)
    (fuel : ℕ) (xs : List s.Value) (b : Bytes) : readRun s key fuel xs b
      = again (.scalar s) .repeated read s.wire.code key fuel xs b := by
  have hruns : runs (.scalar s) .repeated s.wire.code = true := beq_self_eq_true _
  have hocc : occurrence (.scalar s) .repeated read s.wire.code = pushScalar s :=
    funext fun xs => if_pos rfl
  induction fuel generalizing xs b with
  | zero =>
    unfold readRun again
    simp only [hruns, true_and]
  | succ fuel ih =>
    unfold readRun again
    simp only [hruns, true_and, hocc, ih]

/-- `readField` is an occurrence, and the run behind it. -/
theorem readField_eq (key : Bytes) (slot : Slot k T.Value) (b : Bytes) :
    readField T k read wt key slot b = if accepts T k wt = true then
      (do
        let (slot, b) ← occurrence T k read wt slot b
        let (slot, b) ← again T k read wt key b.length slot b
        .ok (some slot, b))
      else skipField wt b := by
  -- a field that starts no run
  have hsingle : runs T k wt = false →
      (if wt = T.wire.code then matched (readInto T k read slot) else skipField wt) b
        = if (wt == T.wire.code) = true then
          (do
            let (slot, b) ← readInto T k read slot b
            let (slot, b) ← again T k read wt key b.length slot b
            .ok (some slot, b))
          else skipField wt b := by
    intro hruns
    by_cases hwt : wt = T.wire.code
    · rw [if_pos hwt, if_pos (beq_iff_eq.2 hwt), matched]
      simp only [again_of_runs _ hruns, ok_bind]
    · rw [if_neg hwt, if_neg fun h => hwt (beq_iff_eq.1 h)]
  cases T with
  | scalar s =>
    cases k with
    | repeated =>
      unfold readField occurrence accepts
      by_cases hwire : wt = s.wire.code
      · subst hwire
        simp only [if_pos, beq_self_eq_true, matched, readUnpacked, readRun_eq_again s read]
        cases pushScalar s slot b with
        | error e | ok x => rfl
      · have hruns : runs (.scalar s) .repeated wt = false := beq_eq_false_iff_ne.2 hwire
        have hne : (wt == s.wire.code) = false := beq_eq_false_iff_ne.2 hwire
        simp only [again_of_runs _ hruns, ok_bind, if_neg hwire, hne, Bool.false_or]
        by_cases hlen : wt = WireType.len.code
        · rw [if_pos hlen, if_pos (beq_iff_eq.2 hlen), matched]
        · rw [if_neg hlen, if_neg fun h => hlen (beq_iff_eq.1 h)]
    | required | defaulted | optional => exact hsingle rfl
  | _ => cases k <;> exact hsingle rfl

end Occurrence

/-! ## Records -/

/-- A record of a message: its key and what is behind it, with the number and
the wire type in the key. -/
structure Entry where
  key : Bytes
  body : Bytes
  id : ℕ
  wt : ℕ
  deriving DecidableEq

/-- The bytes of a record. -/
def Entry.bytes (e : Entry) : Bytes := e.key ++ e.body

/-- A record, cut off the input. -/
def entry : Read Entry := fun b => do
  let (key, p) ← readVarint b
  if key >>> 3 = 0 ∨ 536870911 < key >>> 3 then fail "a protobuf field number of 1 .. 2^29-1" b
  else do
    let (body, rest) ← cut (skipValue (key &&& 7)) p
    .ok (⟨taken b p, body, key >>> 3, key &&& 7⟩, rest)

theorem taken_append (a b : Bytes) : taken (a ++ b) b = a := by
  rw [taken, length_append, Nat.add_sub_cancel, take_left]

/-- A key in front, with what it says. -/
structure Key (b : Bytes) (key : Bytes) (id wt : ℕ) (p : Bytes) : Prop where
  split : b = key ++ p
  reads : ∃ v, (∀ r, readVarint (key ++ r) = .ok (v, r)) ∧ v >>> 3 = id ∧ v &&& 7 = wt
  number : ¬(id = 0 ∨ 536870911 < id)

theorem Key.of_readVarint (h : readVarint b = .ok (v, p))
    (hid : ¬(v >>> 3 = 0 ∨ 536870911 < v >>> 3)) : Key b (taken b p) (v >>> 3) (v &&& 7) p := by
  obtain ⟨pre, rfl, -, hall⟩ := takes_readVarint h
  rw [taken_append]
  exact ⟨rfl, ⟨v, hall, rfl, rfl⟩, hid⟩

theorem entry_eq_ok {e : Entry} : entry b = .ok (e, rest) ↔
    Key b e.key e.id e.wt (e.body ++ rest) ∧ skipValue e.wt (e.body ++ rest) = .ok ((), rest) := by
  constructor
  · intro h
    obtain ⟨v, p, hv, h⟩ := read_eq_ok.1 h
    obtain ⟨hid, h⟩ := check_eq_ok.1 h
    obtain ⟨body, rest', hcut, h⟩ := read_eq_ok.1 h
    cases h
    obtain ⟨rfl, u, hskip⟩ := (cut_eq_ok (takes_skipValue _)).1 hcut
    exact ⟨Key.of_readVarint hv hid, hskip⟩
  · rintro ⟨⟨rfl, ⟨v, hall, hid, hwt⟩, hnum⟩, hskip⟩
    refine read_eq_ok.2 ⟨v, e.body ++ rest, hall _, ?_⟩
    dsimp only
    rw [hid, hwt, if_neg hnum, taken_append]
    exact read_eq_ok.2 ⟨e.body, rest, (cut_eq_ok (takes_skipValue _)).2 ⟨rfl, (), hskip⟩, rfl⟩

theorem takes_entry : Takes 1 entry := by
  intro b e rest h
  obtain ⟨⟨rfl, ⟨v, hall, hid, hwt⟩, hnum⟩, hskip⟩ := entry_eq_ok.1 h
  have hkey := takes_readVarint.length_le (hall [])
  rw [append_nil] at hkey
  refine ⟨e.key ++ e.body, by rw [append_assoc], ?_, fun r => ?_⟩
  · rw [length_append]
    omega
  · have halone := (takes_skipValue e.wt).alone hskip
    exact entry_eq_ok.2 ⟨⟨by rw [append_assoc], ⟨v, hall, hid, hwt⟩, hnum⟩,
      (takes_skipValue e.wt).of_whole (whole_eq_some.2 halone) r⟩

section Message

variable {n : ℕ} (h : Head n) (types : Fin n → Ty) (read : Readers types)

/-- The slot that a number and a wire type are read into. -/
def Head.accepting (id wt : ℕ) : Option (Fin n) :=
  (h.slotOf id).filter fun k => accepts (types k) (h.kind k) wt

/-- What a record does to a message. -/
def Entry.apply (m : Fields h types) (e : Entry) : Option (Fields h types) :=
  match h.accepting types e.id e.wt with
  | none => some ⟨m.unknown.keep e.bytes, m.members⟩
  | some k => (whole (occurrence (types k) (h.kind k) (read k) e.wt (m.members k)) e.body).map
      fun v => ⟨m.unknown, Function.update m.members k v⟩

/-- A round of `read_message` that reads one record. -/
def readRecordOnce (s : Scan h fun k => (types k).Value) :
    Read (Scan h fun k => (types k).Value) := fun b => do
  let (key, p) ← readVarint b
  if key >>> 3 = 0 ∨ 536870911 < key >>> 3 then fail "a protobuf field number of 1 .. 2^29-1" b
  else
    match h.accepting types (key >>> 3) (key &&& 7) with
    | none => do
        let (_, rest) ← skipValue (key &&& 7) p
        .ok (s.keep (taken b rest), rest)
    | some k => do
        let (v, rest) ← occurrence (types k) (h.kind k) (read k) (key &&& 7) (s.value.members k) p
        .ok (s.put k v, rest)

variable {h types read}
variable {s : Scan h fun k => (types k).Value}

theorem accepts_of_accepting {id wt : ℕ} {k : Fin n} (hk : h.accepting types id wt = some k) :
    accepts (types k) (h.kind k) wt = true := (filter_eq_some_iff.1 hk).2

section

variable (hv : readVarint b = .ok (v, p)) (hid : ¬(v >>> 3 = 0 ∨ 536870911 < v >>> 3))
include hv hid

/-- A round of `read_message`: what one record does, and the run behind it. -/
theorem readRecord_of_key :
    readRecord h types read s b = (match h.accepting types (v >>> 3) (v &&& 7) with
      | none => do
          let (_, rest) ← skipValue (v &&& 7) p
          .ok (s.keep (taken b rest), rest)
      | some k => do
          let (x, p') ← occurrence (types k) (h.kind k) (read k) (v &&& 7) (s.value.members k) p
          let (x, rest) ← again (types k) (h.kind k) (read k) (v &&& 7) (taken b p) p'.length x p'
          .ok (s.put k x, rest)) := by
  rw [readRecord, hv, ok_bind]
  dsimp only
  rw [if_neg hid, Head.accepting]
  cases hslot : h.slotOf (v >>> 3) with
  | none => rfl
  | some k =>
    rw [filter_some]
    dsimp only
    rw [readField_eq]
    by_cases hok : accepts (types k) (h.kind k) (v &&& 7) = true
    · rw [if_pos hok, if_pos hok]
      dsimp only
      cases occurrence (types k) (h.kind k) (read k) (v &&& 7) (s.value.members k) p with
      | error e => rfl
      | ok x =>
        simp only [ok_bind]
        cases again (types k) (h.kind k) (read k) (v &&& 7) (taken b p) x.2.length x.1 x.2 with
        | error e | ok y => rfl
    · rw [if_neg hok, if_neg hok, skipField]
      cases skipValue (v &&& 7) p with
      | error e | ok x => rfl

theorem readRecordOnce_of_key :
    readRecordOnce h types read s b = (match h.accepting types (v >>> 3) (v &&& 7) with
      | none => do
          let (_, rest) ← skipValue (v &&& 7) p
          .ok (s.keep (taken b rest), rest)
      | some k => do
          let (x, rest) ← occurrence (types k) (h.kind k) (read k) (v &&& 7) (s.value.members k) p
          .ok (s.put k x, rest)) := by
  rw [readRecordOnce, hv, ok_bind]
  dsimp only
  rw [if_neg hid]

end

theorem exists_key {s' : Scan h fun k => (types k).Value}
    (hrun : readRecordOnce h types read s b = .ok (s', rest)) :
    ∃ v p, readVarint b = .ok (v, p) ∧ ¬(v >>> 3 = 0 ∨ 536870911 < v >>> 3) := by
  obtain ⟨v, p, hv, hrun⟩ := read_eq_ok.1 hrun
  exact ⟨v, p, hv, (check_eq_ok.1 hrun).1⟩

/-- The slots that were seen, with a record. -/
def Entry.mark (h : Head n) (types : Fin n → Ty) (seen : Fin n → Bool) (e : Entry) : Fin n → Bool :=
  match h.accepting types e.id e.wt with
  | none => seen
  | some k => Function.update seen k true

/-- What a record does to the state of the loop. -/
def Entry.scan (h : Head n) (types : Fin n → Ty) (read : Readers types)
    (s : Scan h fun k => (types k).Value) (e : Entry) : Option (Scan h fun k => (types k).Value) :=
  (e.apply h types read s.value).map fun m => ⟨e.mark h types s.seen, m⟩

/-- **One record at a time**: cut off, and done. -/
theorem readRecordOnce_eq_ok {s' : Scan h fun k => (types k).Value} :
    readRecordOnce h types read s b = .ok (s', rest) ↔
      ∃ e, entry b = .ok (e, rest) ∧ e.scan h types read s = some s' := by
  constructor
  · intro hrun
    obtain ⟨v, p, hv, hid⟩ := exists_key hrun
    have hkey := Key.of_readVarint hv hid
    rw [readRecordOnce_of_key hv hid] at hrun
    cases hacc : h.accepting types (v >>> 3) (v &&& 7) with
    | none =>
      rw [hacc] at hrun
      obtain ⟨u, p', hskip, hret⟩ := read_eq_ok.1 hrun
      cases hret
      obtain ⟨body, rfl, -, -⟩ := takes_skipValue _ hskip
      refine ⟨⟨taken b (body ++ rest), body, v >>> 3, v &&& 7⟩, entry_eq_ok.2 ⟨hkey, hskip⟩, ?_⟩
      have hbytes : taken b rest = taken b (body ++ rest) ++ body := by
        conv => lhs; rw [hkey.split, ← append_assoc, taken_append]
      simp only [Entry.scan, Entry.apply, Entry.mark, hacc, map_some, Scan.keep, hbytes,
        Entry.bytes]
    | some k =>
      rw [hacc] at hrun
      obtain ⟨x, hx, rfl⟩ := map_eq_ok.1 hrun
      obtain ⟨htakes, hfollows⟩ := occurrence_takes (read k) (s.value.members k)
        (accepts_of_accepting hacc)
      obtain ⟨body, rfl, -, -⟩ := htakes hx
      obtain ⟨u, hskip⟩ := hfollows hx
      refine ⟨⟨taken b (body ++ rest), body, v >>> 3, v &&& 7⟩, entry_eq_ok.2 ⟨hkey, hskip⟩, ?_⟩
      simp only [Entry.scan, Entry.apply, Entry.mark, hacc,
        whole_eq_some.2 (htakes.alone hx), map_some, Scan.put]
  · rintro ⟨e, hentry, hscan⟩
    obtain ⟨⟨rfl, ⟨v, hall, hid, hwt⟩, hnum⟩, hskip⟩ := entry_eq_ok.1 hentry
    obtain ⟨m, hm, rfl⟩ := map_eq_some_iff.1 hscan
    rw [← hid] at hnum
    rw [readRecordOnce_of_key (hall _) hnum, hid, hwt]
    rw [Entry.apply] at hm
    rw [Entry.mark]
    cases hacc : h.accepting types e.id e.wt with
    | none =>
      rw [hacc] at hm
      cases hm
      dsimp only
      rw [hskip, ok_bind, ← append_assoc, taken_append]
      rfl
    | some k =>
      rw [hacc] at hm
      obtain ⟨x, hx, rfl⟩ := map_eq_some_iff.1 hm
      have htakes := (occurrence_takes (read k) (s.value.members k) (accepts_of_accepting hacc)).1
      dsimp only
      rw [htakes.of_whole hx rest]
      rfl

variable (s : Scan h fun k => (types k).Value)

theorem shrinks_readRecordOnce : Shrinks (readRecordOnce h types read s) := by
  intro b s' rest hrun
  obtain ⟨e, he, -⟩ := readRecordOnce_eq_ok.1 hrun
  exact takes_entry.shrinks he

theorem Scan.put_put {V : Fin n → Type} (s : Scan h V) (k : Fin n) (a b : Slot (h.kind k) (V k)) :
    (s.put k a).put k b = s.put k b := by
  rw [Scan.put, Scan.put, Scan.put]
  rw [update_idem, update_idem]

/-- **A run is read as its records**: behind the same key there is the same
field. -/
theorem toEnd_again {k : Fin n} (hkey : ∀ r, readVarint (key ++ r) = .ok (v, r))
    (hid : ¬(v >>> 3 = 0 ∨ 536870911 < v >>> 3))
    (hacc : h.accepting types (v >>> 3) (v &&& 7) = some k)
    (s : Scan h fun k => (types k).Value) {slot : Slot (h.kind k) (types k).Value}
    (hb : b.length ≤ fuel) :
    (again (types k) (h.kind k) (read k) (v &&& 7) key fuel slot b >>= fun x =>
        toEnd (readRecordOnce h types read) .unfinished (s.put k x.1) x.2)
      = toEnd (readRecordOnce h types read) .unfinished (s.put k slot) b := by
  induction fuel generalizing slot b with
  | zero =>
    obtain rfl := eq_nil_of_length_eq_zero (Nat.le_zero.1 hb)
    rw [again_stop _ fun hgo => Nat.not_lt_zero _ hgo.2.1, ok_bind]
  | succ fuel ih =>
    by_cases hgo : runs (types k) (h.kind k) (v &&& 7) = true ∧ key.length < b.length ∧
        key.isPrefixOf b = true
    · obtain ⟨b, rfl⟩ := isPrefixOf_iff_prefix.1 hgo.2.2
      have hne : key ++ b ≠ [] := ne_nil_of_length_pos (Nat.zero_lt_of_lt hgo.2.1)
      have hmember : (s.put k slot).value.members k = slot := update_self _ _ _
      rw [length_append] at hb
      rw [again_succ _ hgo, drop_left, toEnd_of_ne shrinks_readRecordOnce _ hne,
        readRecordOnce_of_key (hkey b) hid, hacc]
      dsimp only
      rw [hmember]
      cases hocc : occurrence (types k) (h.kind k) (read k) (v &&& 7) slot b with
      | error e => rfl
      | ok x =>
        have hlen := (occurrence_takes (read k) slot (accepts_of_accepting hacc)).1.shrinks hocc
        rw [ok_bind, ok_bind, Scan.put_put]
        exact ih (by omega)
    · rw [again_stop _ hgo, ok_bind]

theorem length_of_again {T : Ty} {k : Kind} {read : T.Value → Bytes → Except Stop T.Value}
    {wt : ℕ} (hok : accepts T k wt = true) {slot slot' : Slot k T.Value}
    (hrun : again T k read wt key fuel slot b = .ok (slot', rest)) : rest.length ≤ b.length := by
  induction fuel generalizing slot b with
  | zero =>
    unfold again at hrun
    split at hrun
    · cases hrun
    · cases hrun
      exact le_refl _
  | succ fuel ih =>
    by_cases hgo : runs T k wt = true ∧ key.length < b.length ∧ key.isPrefixOf b = true
    · rw [again_succ _ hgo] at hrun
      obtain ⟨⟨x, p⟩, hocc, hrun⟩ := bind_eq_ok.1 hrun
      have hlt := (occurrence_takes read slot hok).1.shrinks hocc
      have hle := ih hrun
      rw [length_drop] at hlt
      dsimp only at hle
      omega
    · rw [again_stop _ hgo] at hrun
      cases hrun
      exact le_refl _

theorem shrinks_readRecord : Shrinks (readRecord h types read s) := by
  intro b s' rest hrun
  obtain ⟨v, p, hv, hrun'⟩ := read_eq_ok.1 hrun
  have hlt := takes_readVarint.shrinks hv
  rw [readRecord_of_key hv (check_eq_ok.1 hrun').1] at hrun
  cases hacc : h.accepting types (v >>> 3) (v &&& 7) with
  | none =>
    rw [hacc] at hrun
    obtain ⟨u, p', hskip, hret⟩ := read_eq_ok.1 hrun
    cases hret
    exact lt_trans ((takes_skipValue _).shrinks hskip) hlt
  | some k =>
    rw [hacc] at hrun
    obtain ⟨x, p', hocc, hrun⟩ := read_eq_ok.1 hrun
    obtain ⟨y, hagain, -⟩ := map_eq_ok.1 hrun
    have hok := accepts_of_accepting hacc
    have hocc := (occurrence_takes _ _ hok).1.shrinks hocc
    exact lt_of_le_of_lt (length_of_again hok hagain) (lt_trans hocc hlt)

/-- **Reading ahead makes no difference**: the rounds of `read_message` come
to one record at a time. -/
theorem toEnd_readRecord (b : Bytes) :
    toEnd (readRecord h types read) .unfinished s b
      = toEnd (readRecordOnce h types read) .unfinished s b := by
  generalize hlen : b.length = len
  induction len using Nat.strongRecOn generalizing s b with
  | ind len ih =>
    by_cases hb : b = []
    · subst hb
      rfl
    rw [toEnd_of_ne shrinks_readRecord s hb, toEnd_of_ne shrinks_readRecordOnce s hb]
    cases hv : readVarint b with
    | error e =>
      rw [readRecord, readRecordOnce, hv]
      rfl
    | ok x =>
      obtain ⟨v, p⟩ := x
      have hlt := takes_readVarint.shrinks hv
      by_cases hid : v >>> 3 = 0 ∨ 536870911 < v >>> 3
      · rw [readRecord, readRecordOnce, hv, ok_bind, ok_bind]
        dsimp only
        rw [if_pos hid, if_pos hid]
        rfl
      rw [readRecord_of_key hv hid, readRecordOnce_of_key hv hid]
      cases hacc : h.accepting types (v >>> 3) (v &&& 7) with
      | none =>
        cases hskip : skipValue (v &&& 7) p with
        | error e => rfl
        | ok y =>
          have hskip := (takes_skipValue _).shrinks hskip
          exact ih y.2.length (by omega) _ _ rfl
      | some k =>
        obtain ⟨key, rfl, -, hkey⟩ := takes_readVarint hv
        dsimp only
        rw [taken_append]
        cases hocc : occurrence (types k) (h.kind k) (read k) (v &&& 7)
          (s.value.members k) p with
        | error e => rfl
        | ok y =>
          have hok := accepts_of_accepting hacc
          have hocc := (occurrence_takes _ _ hok).1.shrinks hocc
          simp only [ok_bind]
          rw [← toEnd_again hkey hid hacc s (le_refl _)]
          cases hagain : again (types k) (h.kind k) (read k) (v &&& 7) key y.2.length
            y.1 y.2 with
          | error e => rfl
          | ok z =>
            have hagain := length_of_again hok hagain
            exact ih z.2.length (by omega) _ _ rfl

/-- What a message is once all its records were read into it. -/
def applyAll (h : Head n) (types : Fin n → Ty) (read : Readers types) :
    Fields h types → List Entry →
      Option (Fields h types) :=
  List.foldlM fun m e => e.apply h types read m

theorem foldlM_scan (es : List Entry) (seen : Fin n → Bool) (m : Fields h types) :
    es.foldlM (fun s e => e.scan h types read s) ⟨seen, m⟩
      = (applyAll h types read m es).map fun m' => ⟨es.foldl (Entry.mark h types) seen, m'⟩ := by
  induction es generalizing seen m with
  | nil => rfl
  | cons e es ih =>
    rw [applyAll, foldlM_cons, foldlM_cons, Entry.scan]
    cases he : e.apply h types read m with
    | none => rfl
    | some m' => exact ih _ _

/-- **`read_message` reads the records of its input**, one after the other,
and then asks for the required ones. -/
theorem readMessageWith_eq_ok {m m' : Fields h types} :
    readMessageWith h types read m b = .ok m' ↔ ∃ es, Reads entry b es ∧
      applyAll h types read m es = some m' ∧
      h.complete (es.foldl (Entry.mark h types) fun _ => false) = true := by
  have hstep : ∀ (s : Scan h fun k => (types k).Value) b s' rest,
      readRecordOnce h types read s b = .ok (s', rest) ↔
        ∃ e, entry b = .ok (e, rest) ∧ e.scan h types read s = some s' :=
    fun _ _ _ _ => readRecordOnce_eq_ok
  constructor
  · intro hrun
    obtain ⟨s, hs, hret⟩ := bind_eq_ok.1 hrun
    rw [toEnd_readRecord] at hs
    obtain ⟨es, hes, hfold⟩ := (toEnd_eq_ok takes_entry hstep).1 hs
    rw [foldlM_scan] at hfold
    obtain ⟨m'', hm'', rfl⟩ := map_eq_some_iff.1 hfold
    split at hret
    · rename_i hcomplete
      cases hret
      exact ⟨es, hes, hm'', hcomplete⟩
    · cases hret
  · rintro ⟨es, hes, hm', hcomplete⟩
    refine bind_eq_ok.2 ⟨⟨es.foldl (Entry.mark h types) fun _ => false, m'⟩, ?_, if_pos hcomplete⟩
    rw [toEnd_readRecord]
    refine (toEnd_eq_ok takes_entry hstep).2 ⟨es, hes, ?_⟩
    rw [foldlM_scan, hm']
    rfl

/-! ## Concatenation -/

theorem applyAll_append (m : Fields h types) (es es' : List Entry) :
    applyAll h types read m (es ++ es')
      = (applyAll h types read m es).bind fun m' => applyAll h types read m' es' :=
  List.foldlM_append

theorem Head.complete_of_no_required (hreq : ∀ k, h.kind k ≠ .required) (seen : Fin n → Bool) :
    h.complete seen = true := decide_eq_true fun k hk => absurd hk (hreq k)

/-- **Decoding a concatenation merges**: where no field is required, the
second part is read into what the first one gave. -/
theorem protobufDecode_append (hreq : ∀ k, h.kind k ≠ .required) {m m₁ : Fields h types} {a : Bytes}
    (ha : protobufDecode h types m a = .ok m₁) (b : Bytes) (m₂ : Fields h types) :
    protobufDecode h types m (a ++ b) = .ok m₂ ↔ protobufDecode h types m₁ b = .ok m₂ := by
  obtain ⟨as, has, hm₁, -⟩ := readMessageWith_eq_ok.1 ha
  constructor
  · intro hab
    obtain ⟨es, hes, hm₂, -⟩ := readMessageWith_eq_ok.1 hab
    obtain ⟨bs, hbs, rfl⟩ := (has.append_iff takes_entry).1 hes
    rw [applyAll_append, hm₁] at hm₂
    exact readMessageWith_eq_ok.2 ⟨bs, hbs, hm₂, h.complete_of_no_required hreq _⟩
  · intro hb
    obtain ⟨bs, hbs, hm₂, -⟩ := readMessageWith_eq_ok.1 hb
    refine readMessageWith_eq_ok.2 ⟨as ++ bs, (has.append_iff takes_entry).2 ⟨bs, hbs, rfl⟩, ?_,
      h.complete_of_no_required hreq _⟩
    rw [applyAll_append, hm₁]
    exact hm₂

end Message

/-- A message of one field: repeated numbers, under the id 1. -/
def numbers : Head 1 := .one "Numbers" "values" .repeated true

/-- The border is inside a run: `08 01` and `08 02 18 03`. -/
theorem protobufDecode_append_run :
    ∃ m₁ m₂ : Message numbers fun _ => (Ty.scalar (.int true .w32)).Value,
      protobufDecode numbers _ (Ty.init (.message 1 numbers _)) [8, 1] = .ok m₁ ∧
      protobufDecode numbers _ (Ty.init (.message 1 numbers _)) ([8, 1] ++ [8, 2, 24, 3]) = .ok m₂ ∧
      m₂.members 0 = [1#32, 2#32] ∧ m₂.unknown.bytes = [24, 3] :=
  ⟨_, _, rfl, (protobufDecode_append (by simp [numbers, Head.one]) rfl _ _).2 rfl, rfl, rfl⟩

end Nanom.Proto
