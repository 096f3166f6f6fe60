import Nanom.Tagged.Skip

/-!
# Thrift compact — reading goes as far as skipping

Every value that is read is one that `skip` skips: `readValue_takes` and
`readValue_follows`. So a struct can be read in two passes, which is what
`structWith_fields` says: cut it into the members it has, and read these.
-/

namespace Nanom.Tagged

open Nanom.Parser List

variable {b mid rest : Bytes} {left m n : ℕ} {h : ListHeader} {e elem : CType}
variable {s : Bytes} {type : ℕ}

/-! ## Fields -/

theorem skipInline_skip (left type : ℕ) : skipInline (skip left) type = skip left type false := by
  have h : ∀ nested, skip left = skipWith nested →
      skipInline (skip left) type = skip left type false := by
    intro nested hnested
    rw [hnested]
    unfold skipInline skipWith
    cases CType.ofCode type with
    | none => rfl
    | some t => cases t <;> rfl
  cases left with
  | zero | succ left => exact h _ rfl

theorem takes_fieldId (last : ℤ) (hb : UInt8) : Takes 0 (fieldId last hb) := by
  unfold fieldId
  by_cases hlong : hb.toNat >>> 4 = 0
  · simp only [if_pos hlong]
    exact ((takes_zigzag 16).map fun id => id.toInt).mono (Nat.zero_le 1)
  · simp only [if_neg hlong]
    split
    · exact takes_error _ 0
    · exact takes_ok _

theorem follows_zigzag (bits : ℕ) : Follows skipVarint (zigzag bits) := by
  intro b v rest h
  obtain ⟨w, mid, hw, hret⟩ := read_eq_ok.1 h
  obtain ⟨-, hret⟩ := check_eq_ok.1 hret
  cases hret
  exact ⟨(), skipVarint_eq_ok.2 ⟨w, hw⟩⟩

theorem follows_fieldId (last : ℤ) (hb : UInt8) : Follows (skipId hb) (fieldId last hb) := by
  intro b id rest h
  rw [fieldId] at h
  rw [skipId]
  by_cases hlong : hb.toNat >>> 4 = 0
  · rw [if_pos hlong] at h ⊢
    obtain ⟨v, b', hv, hret⟩ := read_eq_ok.1 h
    cases hret
    exact follows_zigzag 16 hv
  · rw [if_neg hlong] at h ⊢
    obtain ⟨-, h⟩ := check_eq_ok.1 h
    cases h
    exact ⟨(), rfl⟩

section Struct

variable {n : ℕ} {σ τ : Type} {h : Head n} {wire : Fin n → CType} {left : ℕ}
variable {member : Fin n → ℕ → σ → Read σ}

/-- What a field comes to: its id, and then the member it is for, or bytes
that are skipped. -/
theorem structField_eq_ok {s s' : Scan n σ} {hb : UInt8} :
    structField h wire left member s hb b = .ok (s', rest) ↔
      ∃ id mid, fieldId s.last hb b = .ok (id, mid) ∧
        ((∃ k v, h.slotOf id = some k ∧ wireOk (wire k) (hb.toNat &&& 0x0f) = true ∧
          member k (hb.toNat &&& 0x0f) s.value mid = .ok (v, rest) ∧
          s' = ⟨id, Function.update s.seen k true, v⟩) ∨
        ((∀ k, h.slotOf id = some k → wireOk (wire k) (hb.toNat &&& 0x0f) = false) ∧
          skip left (hb.toNat &&& 0x0f) false mid = .ok ((), rest) ∧
          s' = ⟨id, s.seen, s.value⟩)) := by
  constructor
  · intro hrun
    obtain ⟨id, mid, hid, hrun⟩ := read_eq_ok.1 hrun
    refine ⟨id, mid, hid, ?_⟩
    dsimp only at hrun
    cases hslot : h.slotOf id with
    | none =>
      rw [hslot] at hrun
      obtain ⟨u, b', hskip, hret⟩ := read_eq_ok.1 hrun
      cases hret
      exact .inr ⟨fun k hk => (nomatch hk), hskip, rfl⟩
    | some k =>
      rw [hslot] at hrun
      dsimp only at hrun
      by_cases hok : wireOk (wire k) (hb.toNat &&& 0x0f) = true
      · rw [if_pos hok] at hrun
        obtain ⟨v, b', hmem, hret⟩ := read_eq_ok.1 hrun
        cases hret
        exact .inl ⟨k, v, rfl, hok, hmem, rfl⟩
      rw [if_neg hok] at hrun
      obtain ⟨u, b', hskip, hret⟩ := read_eq_ok.1 hrun
      cases hret
      refine .inr ⟨?_, hskip, rfl⟩
      intro k' hk'
      cases hk'
      exact Bool.eq_false_iff.2 hok
  · rintro ⟨id, mid, hid, hcase⟩
    refine read_eq_ok.2 ⟨id, mid, hid, ?_⟩
    dsimp only
    rcases hcase with ⟨k, v, hslot, hok, hmem, rfl⟩ | ⟨hno, hskip, rfl⟩
    · rw [hslot]
      dsimp only
      rw [if_pos hok]
      exact read_eq_ok.2 ⟨v, rest, hmem, rfl⟩
    · cases hslot : h.slotOf id with
      | none => exact read_eq_ok.2 ⟨(), rest, hskip, rfl⟩
      | some k =>
        dsimp only
        rw [if_neg (Bool.eq_false_iff.1 (hno k hslot))]
        exact read_eq_ok.2 ⟨(), rest, hskip, rfl⟩

theorem takes_structField (hm : ∀ k type s, Takes 0 (member k type s)) (s : Scan n σ)
    (hb : UInt8) : Takes 0 (structField h wire left member s hb) := by
  intro b s' rest hrun
  obtain ⟨id, mid, hid, hcase⟩ := structField_eq_ok.1 hrun
  obtain ⟨pre, rfl, -, hall⟩ := takes_fieldId _ _ hid
  rcases hcase with ⟨k, v, hslot, hok, hmem, rfl⟩ | ⟨hno, hskip, rfl⟩
  · obtain ⟨pre', rfl, -, hall'⟩ := hm _ _ _ hmem
    refine ⟨pre ++ pre', by rw [append_assoc], Nat.zero_le _, fun r => ?_⟩
    rw [append_assoc]
    exact structField_eq_ok.2
      ⟨id, pre' ++ r, hall _, .inl ⟨k, v, hslot, hok, hall' r, rfl⟩⟩
  · obtain ⟨pre', rfl, -, hall'⟩ := (skips_skip left).field _ hskip
    refine ⟨pre ++ pre', by rw [append_assoc], Nat.zero_le _, fun r => ?_⟩
    rw [append_assoc]
    exact structField_eq_ok.2 ⟨id, pre' ++ r, hall _, .inr ⟨hno, hall' r, rfl⟩⟩

/-- What a struct comes to: the loop, and then the check for the required
fields. -/
theorem structWith_eq_ok {m v : σ} :
    structWith h wire left member m b = .ok (v, rest) ↔ left ≠ 0 ∧
      ∃ s, loop (structField h wire left member) (.failed ⟨.truncated, 0, 1, none⟩) .unfinished
        ⟨0, fun _ => false, m⟩ b = .ok (s, rest) ∧ h.complete s.seen = true ∧ s.value = v := by
  constructor
  · intro hrun
    obtain ⟨hleft, hrun⟩ := check_eq_ok.1 hrun
    obtain ⟨s, b', hloop, hrun⟩ := read_eq_ok.1 hrun
    dsimp only at hrun
    split at hrun
    · rename_i hall
      cases hrun
      exact ⟨hleft, s, hloop, hall, rfl⟩
    · cases hrun
  · rintro ⟨hleft, s, hloop, hall, rfl⟩
    exact check_eq_ok.2 ⟨hleft, read_eq_ok.2 ⟨s, rest, hloop, if_pos hall⟩⟩

theorem takes_structWith (hm : ∀ k type s, Takes 0 (member k type s)) (m : σ) :
    Takes 1 (structWith h wire left member m) := by
  intro b v rest hrun
  obtain ⟨hleft, s, hloop, hcomplete, rfl⟩ := structWith_eq_ok.1 hrun
  obtain ⟨pre, hpre, hlen, hall⟩ := takes_loop (takes_structField hm) _ hloop
  exact ⟨pre, hpre, hlen, fun r => structWith_eq_ok.2 ⟨hleft, s, hall r, hcomplete, rfl⟩⟩

/-- A struct whose members are skipped is skipped. -/
theorem follows_structWith
    (hf : ∀ k type s, wireOk (wire k) type = true →
      Follows (skip left type false) (member k type s))
    (m : σ) : Follows (skipStruct left) (structWith h wire left member m) := by
  intro b v rest hrun
  obtain ⟨hleft, s, hloop, -, -⟩ := structWith_eq_ok.1 hrun
  have hfield : ∀ (s : Scan n σ) (u : Unit) c b s' mid, True →
      structField h wire left member s c b = .ok (s', mid) →
      ∃ u', skipField (skip left) u c b = .ok (u', mid) ∧ True := by
    intro s u c b s' mid _ hstep
    obtain ⟨id, b', hid, hcase⟩ := structField_eq_ok.1 hstep
    obtain ⟨u₁, hid'⟩ := follows_fieldId _ _ hid
    have hval : ∃ u, skip left (c.toNat &&& 0x0f) false b' = .ok (u, mid) := by
      rcases hcase with ⟨k, v, -, hok, hmem, -⟩ | ⟨-, hskip, -⟩
      · exact hf k _ _ hok hmem
      · exact ⟨(), hskip⟩
    obtain ⟨u₂, hval⟩ := hval
    refine ⟨(), skipField_eq_ok.2 ⟨b', hid', ?_⟩, trivial⟩
    rw [skipInline_skip]
    exact hval
  obtain ⟨u, hu, -⟩ := loop_sim hfield trivial hloop
  exact ⟨u, check_eq_ok.2 ⟨hleft, hu⟩⟩

end Struct

/-! ## Elements -/

theorem times_size {p : Read Unit}
    (hp : ∀ b rest, p b = .ok ((), rest) ↔ ∃ x, b = x ++ rest ∧ x.length = m) (k : ℕ) :
    (∃ us, times p k b = .ok (us, rest)) ↔ ∃ x, b = x ++ rest ∧ x.length = k * m := by
  induction k generalizing b with
  | zero =>
    rw [zero_mul]
    constructor
    · rintro ⟨us, h⟩
      cases h
      exact ⟨[], rfl, rfl⟩
    · rintro ⟨x, rfl, hx⟩
      rw [eq_nil_of_length_eq_zero hx]
      exact ⟨[], rfl⟩
  | succ k ih =>
    rw [Nat.succ_mul]
    constructor
    · rintro ⟨us, h⟩
      obtain ⟨u, mid, us', hu, ht, rfl⟩ := times_succ_eq_ok.1 h
      obtain ⟨x, rfl, hx⟩ := (hp _ _).1 hu
      obtain ⟨y, rfl, hy⟩ := ih.1 ⟨us', ht⟩
      refine ⟨x ++ y, by rw [append_assoc], ?_⟩
      rw [length_append]
      omega
    · rintro ⟨x, rfl, hx⟩
      have hfirst : (x.take m).length = m := by rw [length_take]; omega
      have hrest : (x.drop m).length = k * m := by rw [length_drop]; omega
      obtain ⟨us, hus⟩ := ih.2 ⟨x.drop m, rfl, hrest⟩
      refine ⟨() :: us, times_succ_eq_ok.2 ⟨(), x.drop m ++ rest, us, ?_, hus, rfl⟩⟩
      refine (hp _ _).2 ⟨x.take m, ?_, hfirst⟩
      rw [← append_assoc, take_append_drop]

theorem discard_span_eq_ok (b rest : Bytes) :
    discard (span m) b = .ok ((), rest) ↔ ∃ x, b = x ++ rest ∧ x.length = m := by
  rw [discard_eq_ok]
  simp only [span_eq_ok]

theorem discard_byte_eq_ok (b rest : Bytes) :
    discard byte b = .ok ((), rest) ↔ ∃ x, b = x ++ rest ∧ x.length = 1 := by
  rw [discard_eq_ok]
  constructor
  · rintro ⟨c, h⟩
    cases b with
    | nil => cases h
    | cons c b =>
      cases h
      exact ⟨[c], rfl, rfl⟩
  · rintro ⟨x, rfl, hx⟩
    obtain ⟨c, rfl⟩ := length_eq_one_iff.1 hx
    exact ⟨c, rfl⟩

/-- **The elements of a list are skipped one by one**, also where
`skip_elems` takes them in one go. -/
theorem skipElems_eq_ok :
    skipElems (skip left) h b = .ok ((), rest) ↔
      ∃ us, times (skip left h.elem true) h.count b = .ok (us, rest) := by
  have hbyte : skip left h.elem true = discard byte → (advance h.count b = .ok ((), rest) ↔
      ∃ us, times (skip left h.elem true) h.count b = .ok (us, rest)) := by
    intro hskip
    rw [hskip, times_size discard_byte_eq_ok, advance_eq_ok, mul_one]
    simp only [span_eq_ok]
  have hskip : ∃ nested, skip left = skipWith nested := by
    cases left with
    | zero | succ left => exact ⟨_, rfl⟩
  obtain ⟨nested, hnested⟩ := hskip
  unfold skipElems
  cases ht : CType.ofCode h.elem with
  | none => exact discard_eq_ok
  | some t =>
    cases t with
    | boolTrue | boolFalse | i8 =>
      refine hbyte ?_
      rw [hnested]
      simp [skipWith, ht]
    | i16 | i32 | i64 =>
      have heq : skip left h.elem true = skipVarint := by rw [hnested]; simp only [skipWith, ht]
      rw [heq]
      exact discard_eq_ok
    | dbl =>
      have heq : skip left h.elem true = discard (span 8) := by
        rw [hnested]
        simp only [skipWith, ht]
      rw [heq, times_size discard_span_eq_ok]
      refine advance_eq_ok.trans ?_
      simp only [span_eq_ok]
    | stop | binary | list | set | map | strct => exact discard_eq_ok

/-! ## Values -/

theorem readListOf_eq_ok :
    readListOf elem left s = .ok (h, b) ↔ readListHeader s = .ok (h, b) ∧
      (h.count ≠ 0 → wireOk elem h.elem = true) ∧ left ≠ 0 := by
  constructor
  · intro hread
    obtain ⟨h', b', hhead, hread⟩ := read_eq_ok.1 hread
    obtain ⟨hok, hread⟩ := check_eq_ok.1 hread
    obtain ⟨hleft, hread⟩ := check_eq_ok.1 hread
    cases hread
    exact ⟨hhead, fun hcount => Bool.not_eq_false _ ▸ fun hf => hok ⟨hcount, hf⟩, hleft⟩
  · rintro ⟨hhead, hok, hleft⟩
    refine read_eq_ok.2 ⟨h, b, hhead, check_eq_ok.2 ⟨?_, check_eq_ok.2 ⟨hleft, rfl⟩⟩⟩
    rintro ⟨hcount, hf⟩
    rw [hok hcount] at hf
    cases hf

theorem takes_listOf {α : Type} {q : ListHeader → Read α}
    (hq : ∀ h, (h.count ≠ 0 → wireOk elem h.elem = true) →
      Takes (h.count * minElemBytes h.elem) (q h)) :
    Takes 1 (fun b => readListOf elem left b >>= fun x => q x.1 x.2) := by
  intro b a rest hread
  obtain ⟨⟨h, mid⟩, hhead, hqm⟩ := bind_eq_ok.1 hread
  obtain ⟨hraw, hok, hleft⟩ := readListOf_eq_ok.1 hhead
  obtain ⟨pre, rfl, hlen, hall⟩ := readListHeader_takes hraw
  obtain ⟨pre', rfl, hlen', hall'⟩ := hq h hok hqm
  refine ⟨pre ++ pre', by rw [append_assoc], ?_, ?_⟩
  · rw [length_append]
    omega
  · intro r
    have hcount : h.count * minElemBytes h.elem ≤ (pre' ++ r).length := by rw [length_append]; omega
    rw [append_assoc]
    exact read_eq_ok.2 ⟨h, _, readListOf_eq_ok.2 ⟨hall _ hcount, hok, hleft⟩, hall' r⟩

/-- The type of a value on the wire, if it is one that is accepted. -/
theorem wireOk_iff : wireOk e type = true ↔
    (e = .boolTrue ∧ (type = 1 ∨ type = 2)) ∨ (e = .list ∧ (type = 9 ∨ type = 10)) ∨
      (e ≠ .boolTrue ∧ e ≠ .list ∧ type = e.code) := by
  cases e <;> simp [wireOk, CType.code]

theorem wireOk_bool (h : wireOk .boolTrue type = true) : type = 1 ∨ type = 2 := by
  simpa [wireOk, CType.code] using h

theorem wireOk_list (h : wireOk .list type = true) : type = 9 ∨ type = 10 := by
  simpa [wireOk, CType.code] using h

theorem wireOk_other (he : e ≠ .boolTrue) (he' : e ≠ .list) (h : wireOk e type = true) :
    type = e.code := by
  rw [wireOk, if_neg he, if_neg he'] at h
  exact beq_iff_eq.1 h

theorem wireOk_code (e : CType) : wireOk e e.code = true := by cases e <;> rfl

/-- All the types accepted for a member have elements of one size. -/
theorem minElemBytes_of_wireOk (h : wireOk e type = true) :
    minElemBytes type = minElemBytes e.code := by
  rcases wireOk_iff.1 h with ⟨rfl, rfl | rfl⟩ | ⟨rfl, rfl | rfl⟩ | ⟨-, -, rfl⟩
  · rfl
  · rfl
  · rfl
  · rfl
  · rfl

theorem skip_strct {c : Bool} : Follows (skip left 12 c) (skipStruct (left - 1)) := by
  intro b u rest h
  cases left with
  | zero => cases h
  | succ left => exact ⟨u, h⟩

theorem skip_list {c : Bool} (htype : type = 9 ∨ type = 10)
    (hhead : readListOf elem left s = .ok (h, mid))
    (hskip : skipElems (skip (left - 1)) h mid = .ok ((), rest)) :
    skip left type c s = .ok ((), rest) := by
  obtain ⟨hraw, -, hleft⟩ := readListOf_eq_ok.1 hhead
  obtain ⟨l, rfl⟩ := Nat.exists_eq_succ_of_ne_zero hleft
  have hlist : (readListHeader s >>= fun x => skipElems (skip l) x.1 x.2) = .ok ((), rest) := by
    rw [hraw]
    exact hskip
  rcases htype with rfl | rfl
  · exact hlist
  · exact hlist

/-- Only a `bool` is not the same in a field and in a container. -/
theorem skip_field (he : e ≠ .boolTrue) (he' : e ≠ .boolFalse)
    (h : wireOk e type = true) : skip left type false = skip left type true := by
  have hnested : ∀ nested, skipWith nested type false = skipWith nested type true := by
    intro nested
    rcases wireOk_iff.1 h with ⟨rfl, -⟩ | ⟨-, rfl | rfl⟩ | ⟨-, -, rfl⟩
    · exact absurd rfl he
    · rfl
    · rfl
    · cases e with
      | boolTrue => exact absurd rfl he
      | boolFalse => exact absurd rfl he'
      | _ => rfl
  cases left with
  | zero | succ left => exact hnested _

/-- A member is a value, but for a `bool`. -/
theorem readMember_of_ne {T : Ty} (hT : T ≠ .bool) (read : T.Value → Read T.Value) (type : ℕ)
    (out : T.Value) : readMember T read type out = read out := by
  cases T with
  | bool => exact absurd rfl hT
  | _ => rfl

theorem typeOf_ne_boolFalse (T : Ty) : T.typeOf ≠ .boolFalse := by
  cases T <;> exact CType.noConfusion

theorem typeOf_ne_boolTrue {T : Ty} (hT : T ≠ .bool) : T.typeOf ≠ .boolTrue := by
  cases T with
  | bool => exact absurd rfl hT
  | _ => exact CType.noConfusion

section Members

variable {T : Ty} {read : T.Value → Read T.Value}

theorem takes_readMember (hread : ∀ out, Takes 0 (read out)) (type : ℕ) (out : T.Value) :
    Takes 0 (readMember T read type out) := by
  by_cases hT : T = .bool
  · subst hT
    exact takes_ok _
  · rw [readMember_of_ne hT]
    exact hread out

theorem follows_readMember (hok : wireOk T.typeOf type = true)
    (hread : ∀ out, Follows (skip left type true) (read out)) (out : T.Value) :
    Follows (skip left type false) (readMember T read type out) := by
  by_cases hT : T = .bool
  · subst hT
    have hskip : ∀ b, skip left type false b = .ok ((), b) := by
      intro b
      rcases wireOk_bool hok with rfl | rfl
      · cases left <;> rfl
      · cases left <;> rfl
    intro b v rest h
    cases h
    exact ⟨(), hskip b⟩
  · rw [readMember_of_ne hT, skip_field (typeOf_ne_boolTrue hT) (typeOf_ne_boolFalse T) hok]
    exact hread out

end Members

section Record

variable {n : ℕ} {h : Head n} {types : Fin n → Ty}
variable {read : (k : Fin n) → (types k).Value → Read (types k).Value}

theorem readMembers_eq_ok {k : Fin n} {m m' : Fields h types} :
    readMembers h types read k type m b = .ok (m', rest) ↔
      ∃ v, readMember (types k) (read k) type ((m k).getD (types k).init) b = .ok (v, rest) ∧
        m' = Function.update m k (Slot.put (h.kind k) v) :=
  map_eq_ok (g := fun v => Function.update m k (Slot.put (h.kind k) v))

theorem takes_readMembers (hread : ∀ k out, Takes 0 (read k out)) (k : Fin n) (type : ℕ)
    (m : Fields h types) : Takes 0 (readMembers h types read k type m) := by
  intro b m' rest hrun
  obtain ⟨v, hv, rfl⟩ := readMembers_eq_ok.1 hrun
  obtain ⟨pre, hpre, hlen, hall⟩ := takes_readMember (hread k) type _ hv
  exact ⟨pre, hpre, hlen, fun r => readMembers_eq_ok.2 ⟨v, hall r, rfl⟩⟩

theorem follows_readMembers
    (hread : ∀ k type out, wireOk (types k).typeOf type = true →
      Follows (skip left type true) (read k out)) (k : Fin n) (type : ℕ) (m : Fields h types)
    (hok : wireOk (types k).typeOf type = true) :
    Follows (skip left type false) (readMembers h types read k type m) := by
  intro b m' rest hrun
  obtain ⟨v, hv, rfl⟩ := readMembers_eq_ok.1 hrun
  exact follows_readMember hok (fun out => hread k type out hok) _ hv

end Record

section Lists

variable {E : Ty} {left : ℕ} {b rest : Bytes}

theorem readVector_eq_ok {out : (Ty.vector E).Value} {xs : List E.Value} :
    readValue (.vector E) left out b = .ok (xs, rest) ↔
      ∃ hd mid, readListOf E.typeOf left b = .ok (hd, mid) ∧
        times (readValue E (left - 1) E.init) hd.count mid = .ok (xs, rest) := read_eq_ok

theorem readList_eq_ok {out : (Ty.list E).Value} {l : ListValue E.Value} :
    readValue (.list E) left out b = .ok (l, rest) ↔
      ∃ hd mid region, readListOf E.typeOf left b = .ok (hd, mid) ∧
        cut (skipElems (skip (left - 1)) hd) mid = .ok (region, rest) ∧
        l = .wire region hd.count hd.elem (left - 1) := by
  constructor
  · intro h
    obtain ⟨hd, mid, hhead, hcut⟩ := read_eq_ok.1 h
    obtain ⟨region, b', hregion, hret⟩ := read_eq_ok.1 hcut
    cases hret
    exact ⟨hd, mid, region, hhead, hregion, rfl⟩
  · rintro ⟨hd, mid, region, hhead, hregion, rfl⟩
    exact read_eq_ok.2 ⟨hd, mid, hhead, read_eq_ok.2 ⟨region, rest, hregion, rfl⟩⟩

theorem readLazy_eq_ok {h : Head n} {types : Fin n → Ty}
    {out : (Ty.lazy n h types).Value} {l : LazyValue (Fields h types)} :
    readValue (.lazy n h types) left out b = .ok (l, rest) ↔
      ∃ region, cut (skipStruct (left - 1)) b = .ok (region, rest) ∧ l = .wire region (left - 1) :=
  map_eq_ok (g := fun region => LazyValue.wire region (left - 1))

/-- The elements that are read are skipped, if each of them is. -/
theorem skipElems_of_times {p : Read E.Value} {hd : ListHeader}
    {xs : List E.Value} (hhead : readListOf elem left s = .ok (hd, mid))
    (hf : wireOk elem hd.elem = true → Follows (skip (left - 1) hd.elem true) p)
    (htimes : times p hd.count mid = .ok (xs, rest)) :
    skipElems (skip (left - 1)) hd mid = .ok ((), rest) := by
  obtain ⟨-, helem, -⟩ := readListOf_eq_ok.1 hhead
  refine skipElems_eq_ok.2 ?_
  by_cases hzero : hd.count = 0
  · rw [hzero] at htimes ⊢
    cases htimes
    exact ⟨[], rfl⟩
  · exact follows_times (hf (helem hzero)) hd.count htimes

end Lists

/-- **What a value takes** is at least what counts are checked against. -/
theorem readValue_takes (T : Ty) (left : ℕ) (out : T.Value) :
    Takes (minElemBytes T.typeOf.code) (readValue T left out) := by
  induction T generalizing left with
  | bool => exact takes_byte.check (2 < ·.toNat) _ fun c => decide (c.toNat = 1)
  | i8 => exact takes_byte.map fun c => c.toBitVec
  | i16 => exact takes_zigzag 16
  | i32 => exact takes_zigzag 32
  | i64 => exact takes_zigzag 64
  | enum => exact takes_zigzag 32
  | dbl => exact (takes_span 8).map fun u => BitVec.ofNat 64 (leNat u)
  | binary => exact takes_binary
  | vector E ih =>
    refine takes_listOf (q := fun h => times (readValue E (left - 1) E.init) h.count) ?_
    intro h hok
    by_cases hzero : h.count = 0
    · rw [hzero, zero_mul]
      exact takes_ok []
    · rw [minElemBytes_of_wireOk (hok hzero)]
      exact takes_times (ih (left - 1) E.init) h.count
  | list E _ =>
    refine takes_listOf (q := fun h b => cut (skipElems (skip (left - 1)) h) b >>= fun x =>
      .ok ((.wire x.1 h.count h.elem (left - 1) : ListValue E.Value), x.2)) ?_
    intro h _
    exact (takes_cut (takes_skipElems (skips_skip _) h)).map fun region =>
      (.wire region h.count h.elem (left - 1) : ListValue E.Value)
  | lazy n h types _ =>
    exact (takes_cut (takes_skipStruct (left - 1))).map fun region =>
      (.wire region (left - 1) : LazyValue (Fields h types))
  | emptyStruct => exact takes_skipStruct _
  | message n h types ih =>
    refine takes_structWith (takes_readMembers fun k out => ?_) out
    exact (ih k (left - 1) out).mono (Nat.zero_le _)

/-- **What is read can be skipped**, as the type it has on the wire. -/
theorem readValue_follows (T : Ty) (left type : ℕ) (out : T.Value)
    (hok : wireOk T.typeOf type = true) : Follows (skip left type true) (readValue T left out) := by
  induction T generalizing left type with
  | bool =>
    have hskip : skip left type true = discard byte := by
      rcases wireOk_bool hok with rfl | rfl
      · cases left <;> rfl
      · cases left <;> rfl
    rw [hskip]
    intro b v rest h
    obtain ⟨c, mid, hc, hret⟩ := read_eq_ok.1 h
    obtain ⟨-, hret⟩ := check_eq_ok.1 hret
    cases hret
    exact ⟨(), discard_eq_ok.2 ⟨c, hc⟩⟩
  | i8 =>
    have hskip : skip left type true = discard byte := by
      rw [wireOk_other (by decide) (by decide) hok]
      cases left <;> rfl
    rw [hskip]
    intro b v rest h
    obtain ⟨c, b', hc, hret⟩ := read_eq_ok.1 h
    cases hret
    exact ⟨(), discard_eq_ok.2 ⟨c, hc⟩⟩
  | i16 | i32 | i64 | enum =>
    have hskip : skip left type true = skipVarint := by
      rw [wireOk_other (by decide) (by decide) hok]
      cases left <;> rfl
    rw [hskip]
    exact follows_zigzag _
  | dbl =>
    have hskip : skip left type true = discard (span 8) := by
      rw [wireOk_other (by decide) (by decide) hok]
      cases left <;> rfl
    rw [hskip]
    intro b v rest h
    obtain ⟨u, b', hu, hret⟩ := read_eq_ok.1 h
    cases hret
    exact ⟨(), discard_eq_ok.2 ⟨u, hu⟩⟩
  | binary =>
    have hskip : skip left type true = discard binary := by
      rw [wireOk_other (by decide) (by decide) hok]
      cases left <;> rfl
    rw [hskip]
    intro b v rest h
    exact ⟨(), discard_eq_ok.2 ⟨v, h⟩⟩
  | vector E ih =>
    intro b xs rest h
    obtain ⟨hd, mid, hhead, htimes⟩ := readVector_eq_ok.1 h
    refine ⟨(), skip_list (wireOk_list hok) hhead (skipElems_of_times hhead ?_ htimes)⟩
    exact ih (left - 1) hd.elem E.init
  | list E _ =>
    intro b l rest h
    obtain ⟨hd, mid, region, hhead, hregion, -⟩ := readList_eq_ok.1 h
    obtain ⟨-, u, hskip⟩ := (cut_eq_ok (takes_skipElems (skips_skip _) hd)).1 hregion
    exact ⟨(), skip_list (wireOk_list hok) hhead hskip⟩
  | lazy n h types _ =>
    rw [wireOk_other (e := .strct) (by decide) (by decide) hok]
    intro b l rest hrun
    obtain ⟨region, hregion, -⟩ := readLazy_eq_ok.1 hrun
    obtain ⟨-, u, hskip⟩ := (cut_eq_ok (takes_skipStruct _)).1 hregion
    exact skip_strct hskip
  | emptyStruct =>
    rw [wireOk_other (by decide) (by decide) hok]
    exact skip_strct
  | message n h types ih =>
    rw [wireOk_other (e := .strct) (by decide) (by decide) hok]
    intro b m rest hrun
    have hmembers := follows_readMembers (h := h) fun k type' out' hk =>
      ih k (left - 1) type' out' hk
    obtain ⟨u, hu⟩ := follows_structWith hmembers out hrun
    exact skip_strct hu

theorem readStruct_takes (h : Head n) (types : Fin n → Ty) (left : ℕ) (k : Fin n)
    (type : ℕ) (m : Fields h types) :
    Takes 0 (readMembers h types (fun k => readValue (types k) left) k type m) :=
  takes_readMembers (fun k out => (readValue_takes (types k) left out).mono (Nat.zero_le _))
    k type m

theorem readStruct_members (h : Head n) (types : Fin n → Ty) (left : ℕ) (k : Fin n)
    (type : ℕ) (m : Fields h types) (hok : wireOk (types k).typeOf type = true) :
    Follows (skip left type false)
      (readMembers h types (fun k => readValue (types k) left) k type m) :=
  follows_readMembers (fun k type out => readValue_follows (types k) left type out) k type m hok

theorem readStruct_follows (h : Head n) (types : Fin n → Ty) (left : ℕ) (m : Fields h types) :
    Follows (skipStruct left) (readStruct h types left m) :=
  follows_structWith (readStruct_members h types left) m

/-- **A struct says itself where it ends.** What `thrift_compact` decodes is read
alike whatever follows, and `thrift_compact_skip` goes as far, which has no model
to go by. -/
theorem thriftCompact_delimited (h : Head n) (types : Fin n → Ty) :
    Takes 1 (thriftCompact h types) ∧ Follows thriftCompactSkip (thriftCompact h types) := by
  unfold thriftCompact readStruct
  constructor
  · exact takes_structWith (readStruct_takes h types _) _
  · exact readStruct_follows h types _ _

/-! ## Two passes -/

/-- A member as it stands on the wire: its slot, its type and its bytes. -/
structure Field (n : ℕ) where
  slot : Fin n
  type : ℕ
  body : Bytes

section Passes

variable {n : ℕ} {σ τ : Type} {h : Head n} {wire : Fin n → CType} {left : ℕ}
variable {member : Fin n → ℕ → σ → Read σ} {member' : Fin n → ℕ → τ → Read τ}

/-- The bytes of a member are kept. -/
def splitMember (left : ℕ) (k : Fin n) (type : ℕ) (fs : List (Field n)) : Read (List (Field n)) :=
  fun b => do
    let (body, b) ← cut (skip left type false) b
    .ok (fs ++ [⟨k, type, body⟩], b)

/-- The members a struct has on the wire, in order. -/
def fieldsOf (h : Head n) (wire : Fin n → CType) (left : ℕ) : Read (List (Field n)) :=
  structWith h wire left (splitMember left) []

section

variable
  (hf : ∀ k type s, wireOk (wire k) type = true → Follows (skip left type false) (member k type s))
include hf

/-- A struct read at one depth and skipped at another is read there too. -/
theorem structWith_sync {left' : ℕ} {R : σ → τ → Prop}
    (hmem : ∀ k type s t b s' mid, wireOk (wire k) type = true → R s t →
      member k type s b = .ok (s', mid) → skip left' type false b = .ok ((), mid) →
      ∃ t', member' k type t b = .ok (t', mid) ∧ R s' t')
    {m v : σ} {m' : τ} {rest' : Bytes} (hR : R m m')
    (hrun : structWith h wire left member m b = .ok (v, rest))
    (hskip : skipStruct left' b = .ok ((), rest')) :
    ∃ v', structWith h wire left' member' m' b = .ok (v', rest) ∧ R v v' := by
  obtain ⟨-, s, hloop, hcomplete, rfl⟩ := structWith_eq_ok.1 hrun
  obtain ⟨hleft', hskip⟩ := check_eq_ok.1 hskip
  have hfield : ∀ (s : Scan n σ) (u : Unit) (t : Scan n τ) c b s' u' mid mid',
      (s.last = t.last ∧ s.seen = t.seen ∧ R s.value t.value) →
      structField h wire left member s c b = .ok (s', mid) →
      skipField (skip left') u c b = .ok (u', mid') →
      mid = mid' ∧ ∃ t', structField h wire left' member' t c b = .ok (t', mid) ∧
        (s'.last = t'.last ∧ s'.seen = t'.seen ∧ R s'.value t'.value) := by
    rintro s u t c b s' u' mid mid' ⟨hlast, hseen, hval⟩ hstep hskipped
    obtain ⟨id, b', hid, hcase⟩ := structField_eq_ok.1 hstep
    obtain ⟨b₁, hid₁, hval₁⟩ := skipField_eq_ok.1 hskipped
    obtain ⟨u₁, hid'⟩ := follows_fieldId _ _ hid
    rw [hid₁] at hid'
    cases hid'
    rw [skipInline_skip] at hval₁
    rw [hlast] at hid
    rcases hcase with ⟨k, v, hslot, hok, hv, rfl⟩ | ⟨hno, hskip, rfl⟩
    · obtain ⟨u₂, hu₂⟩ := hf k _ _ hok hv
      obtain rfl := skip_unique hu₂ hval₁
      obtain ⟨v', hv', hR'⟩ := hmem k _ _ _ _ _ _ hok hval hv hval₁
      refine ⟨rfl, _, structField_eq_ok.2
        ⟨id, b', hid, .inl ⟨k, v', hslot, hok, hv', rfl⟩⟩, rfl, ?_, hR'⟩
      rw [hseen]
    · obtain rfl := skip_unique hskip hval₁
      exact ⟨rfl, _, structField_eq_ok.2 ⟨id, b', hid, .inr ⟨hno, hval₁, rfl⟩⟩, rfl, hseen, hval⟩
  obtain ⟨t, ht, -, hseen, hval⟩ :=
    loop_sync (t := ⟨0, fun _ => false, m'⟩) hfield ⟨rfl, rfl, hR⟩ hloop hskip
  rw [hseen] at hcomplete
  exact ⟨t.value, structWith_eq_ok.2 ⟨hleft', t, ht, hcomplete, rfl⟩, hval⟩

/-- Two readers of the same struct, member by member. -/
theorem structWith_sim {R : σ → τ → Prop}
    (hmem : ∀ k type s t b s' mid, wireOk (wire k) type = true → R s t →
      member k type s b = .ok (s', mid) → ∃ t', member' k type t b = .ok (t', mid) ∧ R s' t')
    {m v : σ} {m' : τ} (hR : R m m') (hrun : structWith h wire left member m b = .ok (v, rest)) :
    ∃ v', structWith h wire left member' m' b = .ok (v', rest) ∧ R v v' := by
  obtain ⟨u, hskip⟩ := follows_structWith hf m hrun
  exact structWith_sync hf (fun k type s t b s' mid hok hst hs _ =>
    hmem k type s t b s' mid hok hst hs) hR hrun hskip

end

/-- **A struct is read in two passes**: it is cut into its members, and
these are read one after the other. -/
theorem structWith_fields (ht : ∀ k type s, Takes 0 (member k type s))
    (hf : ∀ k type s, wireOk (wire k) type = true →
      Follows (skip left type false) (member k type s))
    {m v : σ} (hrun : structWith h wire left member m b = .ok (v, rest)) :
    ∃ fs, fieldsOf h wire left b = .ok (fs, rest) ∧
      fs.foldlM (fun m f => whole (member f.slot f.type m) f.body) m = some v := by
  refine structWith_sim (R := fun s (fs : List (Field n)) =>
    fs.foldlM (fun m f => whole (member f.slot f.type m) f.body) m = some s) hf ?_ rfl hrun
  intro k type s fs b s' mid hok hfold hmem
  obtain ⟨body, hbody, hwhole⟩ := (split_iff ((skips_skip left).field type) (ht k type s)
    (hf k type s hok)).1 hmem
  refine ⟨fs ++ [⟨k, type, body⟩], ?_, ?_⟩
  · rw [splitMember, hbody]
    rfl
  · rw [List.foldlM_append, hfold]
    change (whole (member k type s) body >>= fun m => some m) = some s'
    rw [hwhole]
    rfl

end Passes

end Nanom.Tagged
