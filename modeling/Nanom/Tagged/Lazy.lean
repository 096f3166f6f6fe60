import Mathlib.Data.List.Forall2
import Mathlib.Data.Option.Basic
import Nanom.Tagged.Follow

/-!
# Thrift compact — reading later

`list<E>` and `lazy<M>` keep bytes that were only skipped and read them when asked.
`Duo` is a pair of models that differ in where they do so, `eager` and `lazy`, and
`Agrees` says that what the lazy one has to give is what the eager one has.

A message that occurs again is read into the one that is there, and kept bytes are
replaced. So the two agree as long as nothing that is kept is given twice
(`GivenOnce`).
-/

namespace Nanom.Tagged

open Nanom.Parser List Option

variable {b rest region : Bytes} {left : ℕ}

/-! ## Lists and messages that were kept -/

/-- An element of a list, read anew. -/
def Ty.readElem (T : Ty) (left : ℕ) : Read T.Value := readValue T left T.init

/-- A message, read anew. -/
def readMessage {n : ℕ} (h : Head n) (types : Fin n → Ty) (left : ℕ) : Read (Fields h types) :=
  readStruct h types left ((Ty.message n h types).init)

section Kept

variable {V : Type} {read : ℕ → Read V}

/-- **What a list has to give**, whichever way it is asked. -/
structure ListValue.Holds (read : ℕ → Read V) (l : ListValue V) (xs : List V) : Prop where
  toVector : l.toVector read = .ok xs
  index : ∀ i, l.at read i = match xs[i]? with
    | some x => .ok x
    | none => .error .notInRange
  forEach : ∀ {σ : Type} (f : σ → V → σ × Bool) (s : σ), l.forEach read f s = .ok (forEachOf f s xs)

theorem forEachFrom_of_times {σ : Type} {p : Read V} (f : σ → V → σ × Bool) {n : ℕ} {s : σ}
    {xs : List V} (h : times p n b = .ok (xs, rest)) :
    forEachFrom p f n s b = .ok (forEachOf f s xs) := by
  induction n generalizing s b xs with
  | zero =>
    cases h
    rfl
  | succ n ih =>
    obtain ⟨x, mid, xs, hx, ht, rfl⟩ := times_succ_eq_ok.1 h
    rw [forEachFrom, hx, ok_bind, forEachOf]
    dsimp only
    by_cases hmore : (f s x).2 = true
    · rw [if_pos hmore, if_pos hmore]
      exact ih ht
    · rw [if_neg hmore, if_neg hmore]

theorem forEachOf_append (xs : List V) (out : List V) :
    forEachOf (fun (out : List V) v => (out ++ [v], true)) out xs = out ++ xs := by
  induction xs generalizing out with
  | nil => exact (append_nil out).symm
  | cons x xs ih =>
    rw [forEachOf]
    dsimp only
    rw [ih, append_assoc]
    rfl

theorem times_of_forEachFrom {p : Read V} {n : ℕ} {out xs : List V}
    (h : forEachFrom p (fun (out : List V) v => (out ++ [v], true)) n out b = .ok xs) :
    ∃ ys rest, xs = out ++ ys ∧ times p n b = .ok (ys, rest) := by
  induction n generalizing b out with
  | zero =>
    cases h
    exact ⟨[], b, (append_nil _).symm, rfl⟩
  | succ n ih =>
    obtain ⟨⟨x, mid⟩, hx, h⟩ := bind_eq_ok.1 h
    obtain ⟨ys, rest, rfl, ht⟩ := ih h
    exact ⟨x :: ys, rest, by rw [append_assoc]; rfl, times_succ_eq_ok.2 ⟨x, mid, ys, hx, ht, rfl⟩⟩

theorem times_of_toVector {count elem : ℕ} {xs : List V}
    (h : (ListValue.wire region count elem left).toVector read = .ok xs) :
    ∃ rest, times (read left) count region = .ok (xs, rest) := by
  obtain ⟨ys, rest, hys, ht⟩ := times_of_forEachFrom h
  exact ⟨rest, hys ▸ ht⟩

theorem times_drop {p : Read V} {n i : ℕ} {xs : List V}
    (h : times p n b = .ok (xs, rest)) (hi : i < n) :
    ∃ ys mid x end', times p i b = .ok (ys, mid) ∧ p mid = .ok (x, end') ∧ xs[i]? = some x := by
  induction i generalizing n b xs with
  | zero =>
    obtain ⟨n, rfl⟩ := Nat.exists_eq_succ_of_ne_zero (Nat.ne_of_gt hi)
    obtain ⟨x, mid, xs, hx, -, rfl⟩ := times_succ_eq_ok.1 h
    exact ⟨[], b, x, mid, rfl, hx, rfl⟩
  | succ i ih =>
    obtain ⟨n, rfl⟩ := Nat.exists_eq_succ_of_ne_zero (Nat.ne_of_gt (Nat.zero_lt_of_lt hi))
    obtain ⟨x, mid, xs, hx, ht, rfl⟩ := times_succ_eq_ok.1 h
    obtain ⟨ys, mid', y, end', hys, hy, hget⟩ := ih ht (Nat.lt_of_succ_lt_succ hi)
    exact ⟨x :: ys, mid', y, end', times_succ_eq_ok.2 ⟨x, mid, ys, hx, hys, rfl⟩, hy, hget⟩

/-- A list whose bytes can be read gives what is read. -/
theorem holds_of_times {count elem : ℕ} {xs : List V}
    (hf : count ≠ 0 → Follows (skip left elem true) (read left))
    (h : times (read left) count region = .ok (xs, rest)) :
    (ListValue.wire region count elem left).Holds read xs := by
  constructor
  · refine (forEachFrom_of_times _ h).trans ?_
    rw [forEachOf_append, nil_append]
  · intro i
    have hlen := length_of_times h
    rw [ListValue.at]
    by_cases hi : count ≤ i
    · rw [if_pos hi, getElem?_eq_none (by omega)]
    obtain ⟨ys, mid, x, end', hys, hx, hget⟩ := times_drop h (not_le.1 hi)
    obtain ⟨us, hus⟩ := follows_times (hf (by omega)) i hys
    rw [if_neg hi, hus, hget]
    change ((read left mid).mapError ListError.stopped >>= fun y => Except.ok y.1) = _
    rw [hx]
    rfl
  · intro σ f s
    exact forEachFrom_of_times f h

end Kept

/-! ## Two models -/

/-- **Two models of the same messages**, which differ in where one keeps
bytes that the other reads. -/
inductive Duo
  | same (T : Ty)
  | vectors (E : Duo)
  | lists (E : Duo)
  | vectorList (E : Duo)
  | lazies (n : ℕ) (h : Head n) (fields : Fin n → Duo)
  | messages (n : ℕ) (h : Head n) (fields : Fin n → Duo)
  | messageLazy (n : ℕ) (h : Head n) (fields : Fin n → Duo)

namespace Duo

/-- The model that reads at once. -/
def eager : Duo → Ty
  | same T => T
  | vectors E => .vector E.eager
  | lists E => .list E.eager
  | vectorList E => .vector E.eager
  | lazies n h fields => .lazy n h fun k => (fields k).eager
  | messages n h fields => .message n h fun k => (fields k).eager
  | messageLazy n h fields => .message n h fun k => (fields k).eager

/-- The model that keeps bytes. -/
def lazy : Duo → Ty
  | same T => T
  | vectors E => .vector E.lazy
  | lists E => .list E.lazy
  | vectorList E => .list E.lazy
  | lazies n h fields => .lazy n h fun k => (fields k).lazy
  | messages n h fields => .message n h fun k => (fields k).lazy
  | messageLazy n h fields => .lazy n h fun k => (fields k).lazy

theorem typeOf_lazy (P : Duo) : P.lazy.typeOf = P.eager.typeOf := by
  cases P <;> rfl

end Duo

/-- **Agreement**: what the lazy model has to give is what the eager one
has. A message that was never given is `M{}` in the one and empty in the
other. -/
def Agrees : (P : Duo) → P.eager.Value → P.lazy.Value → Prop
  | .same _ => fun v v' => v = v'
  | .vectors E => fun (xs : List E.eager.Value) (xs' : List E.lazy.Value) =>
    List.Forall₂ (Agrees E) xs xs'
  | .lists E => fun (l : ListValue E.eager.Value) (l' : ListValue E.lazy.Value) =>
    ∀ xs, l.toVector E.eager.readElem = .ok xs →
      ∃ xs', l'.Holds E.lazy.readElem xs' ∧ List.Forall₂ (Agrees E) xs xs'
  | .vectorList E => fun (xs : List E.eager.Value) (l' : ListValue E.lazy.Value) =>
    ∃ xs', l'.Holds E.lazy.readElem xs' ∧ List.Forall₂ (Agrees E) xs xs'
  | .lazies _ h fields => fun (l : LazyValue (Record h fun k => (fields k).eager.Value))
      (l' : LazyValue (Record h fun k => (fields k).lazy.Value)) =>
      ∀ m, l.decode (readMessage h fun k => (fields k).eager) = .ok m →
        ∃ m', l'.decode (readMessage h fun k => (fields k).lazy) = .ok m' ∧
          ∀ k, Option.Rel (Agrees (fields k)) (m k).get? (m' k).get?
  | .messages _ h fields => fun (m : Record h fun k => (fields k).eager.Value)
      (m' : Record h fun k => (fields k).lazy.Value) =>
      ∀ k, Option.Rel (Agrees (fields k)) (m k).get? (m' k).get?
  | .messageLazy n h fields => fun (m : Record h fun k => (fields k).eager.Value)
      (l' : LazyValue (Record h fun k => (fields k).lazy.Value)) =>
      (l'.empty = true ∧ m = (Ty.message n h fun k => (fields k).eager).init) ∨
        ∃ m', l'.decode (readMessage h fun k => (fields k).lazy) = .ok m' ∧
          ∀ k, Option.Rel (Agrees (fields k)) (m k).get? (m' k).get?

/-! ## What is given once -/

/-- The elements of a list, as they stand on the wire. -/
def pieces (left : ℕ) (b : Bytes) : List Bytes :=
  match readListHeader b with
  | .error _ => []
  | .ok (h, b) =>
    match times (cut (skip left h.elem true)) h.count b with
    | .error _ => []
    | .ok (ps, _) => ps

/-- The members that structs have on the wire, one struct after another. -/
def membersOf {n : ℕ} (h : Head n) (wire : Fin n → CType) (left : ℕ) (bodies : List Bytes) :
    List (Field n) :=
  bodies.flatMap fun b =>
    match fieldsOf h wire left b with
    | .error _ => []
    | .ok (fs, _) => fs

/-- The bytes of one member. -/
def bodiesOf {n : ℕ} (k : Fin n) (fs : List (Field n)) : List Bytes :=
  (fs.filter fun f => f.slot = k).map Field.body

/-- **No message that is kept is given twice.** `bodies` is what there is
for a place: a message is made up from all of it, of a list and of a message
kept in both models the last is left. -/
def GivenOnce : Duo → ℕ → List Bytes → Prop
  | .same _, _, _ => True
  | .vectors E, left, bodies =>
    ∀ b ∈ bodies.getLast?, ∀ p ∈ pieces (left - 1) b, GivenOnce E (left - 1) [p]
  | .lists E, left, bodies =>
    ∀ b ∈ bodies.getLast?, ∀ p ∈ pieces (left - 1) b, GivenOnce E (left - 1) [p]
  | .vectorList E, left, bodies =>
    ∀ b ∈ bodies.getLast?, ∀ p ∈ pieces (left - 1) b, GivenOnce E (left - 1) [p]
  | .lazies _ h fields, left, bodies =>
    ∀ b ∈ bodies.getLast?, ∀ k, GivenOnce (fields k) (left - 1)
      (bodiesOf k (membersOf h (fun k => (fields k).eager.typeOf) (left - 1) [b]))
  | .messages _ h fields, left, bodies =>
    ∀ k, GivenOnce (fields k) (left - 1)
      (bodiesOf k (membersOf h (fun k => (fields k).eager.typeOf) (left - 1) bodies))
  | .messageLazy _ h fields, left, bodies =>
    bodies.length ≤ 1 ∧ ∀ k, GivenOnce (fields k) (left - 1)
      (bodiesOf k (membersOf h (fun k => (fields k).eager.typeOf) (left - 1) bodies))

/-! ## The lazy model reads what the eager one reads -/

theorem eq_bool_of_typeOf {T : Ty} (h : T.typeOf = .boolTrue) : T = .bool := by
  cases T with
  | bool => rfl
  | _ => cases h

theorem readMember_into {T T' : Ty} (htype : T'.typeOf = T.typeOf)
    {read : T.Value → Read T.Value} {read' : T'.Value → Read T'.Value}
    (hread : ∀ out out', Follows (read' out') (read out)) (type : ℕ) (out : T.Value)
    (out' : T'.Value) : Follows (readMember T' read' type out') (readMember T read type out) := by
  by_cases hT : T = .bool
  · subst hT
    obtain rfl := eq_bool_of_typeOf htype
    intro b v rest h
    cases h
    exact ⟨_, rfl⟩
  · have hT' : T' ≠ .bool := by rintro rfl; exact hT (eq_bool_of_typeOf htype.symm)
    rw [readMember_of_ne hT, readMember_of_ne hT']
    exact hread out out'

/-- Two models of a struct, where one reads the members that the other
reads. -/
theorem structWith_into {n : ℕ} {h : Head n} {types types' : Fin n → Ty}
    {read : (k : Fin n) → (types k).Value → Read (types k).Value}
    {read' : (k : Fin n) → (types' k).Value → Read (types' k).Value}
    (htype : ∀ k, (types' k).typeOf = (types k).typeOf)
    (hf : ∀ k type m, wireOk (types k).typeOf type = true →
      Follows (skip left type false) (readMembers h types read k type m))
    (hread : ∀ k out out', Follows (read' k out') (read k out))
    (m : Fields h types) (m' : Record h fun k => (types' k).Value) :
    Follows (structWith h (fun k => (types' k).typeOf) left (readMembers h types' read') m')
      (structWith h (fun k => (types k).typeOf) left (readMembers h types read) m) := by
  have hmember : ∀ k type (s : Fields h types)
      (t : Record h fun k => (types' k).Value) b s' mid,
      wireOk (types k).typeOf type = true → True →
      readMembers h types read k type s b = .ok (s', mid) →
      ∃ t', readMembers h types' read' k type t b = .ok (t', mid) ∧ True := by
    intro k type s t b s' mid _ _ hs
    obtain ⟨v, hv, -⟩ := readMembers_eq_ok.1 hs
    obtain ⟨v', hv'⟩ := readMember_into (htype k) (hread k) type _ ((t k).getD (types' k).init) hv
    exact ⟨_, readMembers_eq_ok.2 ⟨v', hv', rfl⟩, trivial⟩
  intro b v rest hrun
  have hsim : ∃ v', structWith h (fun k => (types k).typeOf) left (readMembers h types' read') m' b
      = .ok (v', rest) ∧ True := structWith_sim hf hmember trivial hrun
  obtain ⟨v', hv', -⟩ := hsim
  refine ⟨v', ?_⟩
  simp only [htype]
  exact hv'

/-- Whether a value is read does not depend on what it is read into. -/
theorem readValue_into (T : Ty) (left : ℕ) (out out' : T.Value) :
    Follows (readValue T left out') (readValue T left out) := by
  induction T generalizing left with
  | message n h types ih =>
    exact structWith_into (fun _ => rfl) (readStruct_members h types (left - 1))
      (fun k out out' => ih k (left - 1) out out') out out'
  | _ => exact Follows.refl _

/-- **The lazy model reads what the eager one reads**, and stops there. -/
theorem readValue_lazy (P : Duo) (left : ℕ) (out : P.eager.Value) (out' : P.lazy.Value) :
    Follows (readValue P.lazy left out') (readValue P.eager left out) := by
  induction P generalizing left with
  | same T => exact readValue_into T left out out'
  | vectors E ih =>
    intro b xs rest hrun
    obtain ⟨hd, mid, hhead, htimes⟩ := readVector_eq_ok.1 hrun
    obtain ⟨xs', hxs'⟩ := follows_times (ih (left - 1) E.eager.init E.lazy.init) hd.count htimes
    rw [← E.typeOf_lazy] at hhead
    exact ⟨xs', readVector_eq_ok.2 ⟨hd, mid, hhead, hxs'⟩⟩
  | lists E ih =>
    intro b l rest hrun
    obtain ⟨hd, mid, region, hhead, hregion, -⟩ := readList_eq_ok.1 hrun
    rw [← E.typeOf_lazy] at hhead
    exact ⟨_, readList_eq_ok.2 ⟨hd, mid, region, hhead, hregion, rfl⟩⟩
  | vectorList E ih =>
    intro b xs rest hrun
    obtain ⟨hd, mid, hhead, htimes⟩ := readVector_eq_ok.1 hrun
    -- what the eager model reads is skipped, and so it can be kept
    have hskip := skipElems_of_times hhead (readValue_follows E.eager _ _ _) htimes
    obtain ⟨region, hregion⟩ := follows_cut (takes_skipElems (skips_skip (left - 1)) hd) hskip
    rw [← E.typeOf_lazy] at hhead
    exact ⟨_, readList_eq_ok.2 ⟨hd, mid, region, hhead, hregion, rfl⟩⟩
  | lazies n h fields ih =>
    intro b l rest hrun
    obtain ⟨region, hregion, -⟩ := readLazy_eq_ok.1 hrun
    exact ⟨_, readLazy_eq_ok.2 ⟨region, hregion, rfl⟩⟩
  | messages n h fields ih =>
    exact structWith_into (fun k => (fields k).typeOf_lazy) (readStruct_members h _ (left - 1))
      (fun k out out' => ih k (left - 1) out out') out out'
  | messageLazy n h fields ih =>
    intro b m rest hrun
    obtain ⟨u, hskip⟩ := readStruct_follows h (fun k => (fields k).eager) (left - 1) out hrun
    obtain ⟨region, hregion⟩ := follows_cut (takes_skipStruct (left - 1)) hskip
    exact ⟨_, readLazy_eq_ok.2 ⟨region, hregion, rfl⟩⟩

/-! ## Slot by slot -/

section Slots

variable {n : ℕ} {h : Head n} {types : Fin n → Ty}
variable {read : (k : Fin n) → (types k).Value → Read (types k).Value}
variable {m m' : Fields h types} {fs : List (Field n)}

/-- A member that is read into the value there is. -/
def readInto (T : Ty) (read : T.Value → Read T.Value) (v : T.Value) (f : Field n) :
    Option T.Value := whole (readMember T read f.type v) f.body

theorem whole_readMembers {f : Field n} :
    whole (readMembers h types read f.slot f.type m) f.body = some m' ↔
      ∃ v, readInto (types f.slot) (read f.slot) ((m f.slot).getD (types f.slot).init) f = some v ∧
        m' = Function.update m f.slot (Slot.put (h.kind f.slot) v) := by
  rw [whole_eq_some, readMembers_eq_ok]
  simp only [readInto, whole_eq_some]

/-- **The slots do not meet**: the value of each is made up from its own
members. -/
theorem foldlM_slot
    (hfold : fs.foldlM (fun m f => whole (readMembers h types read f.slot f.type m) f.body) m
      = some m') (k : Fin n) :
    (fs.filter fun f => f.slot = k).foldlM (fun s f =>
      (readInto (types k) (read k) (Slot.getD s (types k).init) f).map (Slot.put (h.kind k))) (m k)
      = some (m' k) := by
  induction fs generalizing m with
  | nil =>
    cases hfold
    rfl
  | cons f fs ih =>
    obtain ⟨m₁, hm₁, hfold⟩ := bind_eq_some_iff.1 hfold
    obtain ⟨v, hv, rfl⟩ := whole_readMembers.1 hm₁
    have htail := ih hfold
    by_cases hk : f.slot = k
    · subst hk
      rw [Function.update_self] at htail
      rw [filter_cons_of_pos (by simp), foldlM_cons, hv]
      exact htail
    · rw [Function.update_of_ne (Ne.symm hk)] at htail
      rw [filter_cons_of_neg (by simpa using hk)]
      exact htail

theorem foldlM_put {T : Ty} {read : T.Value → Read T.Value} {kind : Kind}
    {v : T.Value} {s : Slot kind T.Value}
    (hfold : fs.foldlM (fun s f => (readInto T read (Slot.getD s T.init) f).map (Slot.put kind))
      (Slot.put kind v) = some s) :
    ∃ v', fs.foldlM (readInto T read) v = some v' ∧ s = Slot.put kind v' := by
  induction fs generalizing v with
  | nil =>
    cases hfold
    exact ⟨v, rfl, rfl⟩
  | cons f fs ih =>
    obtain ⟨s₁, hs₁, hfold⟩ := bind_eq_some_iff.1 hfold
    obtain ⟨v₁, hv₁, rfl⟩ := map_eq_some_iff.1 hs₁
    rw [Slot.getD, Slot.get?_put] at hv₁
    obtain ⟨v', hv', rfl⟩ := ih hfold
    refine ⟨v', ?_, rfl⟩
    exact bind_eq_some_iff.2 ⟨v₁, hv₁, hv'⟩

/-- A slot as it was at first, or with what its members make up. -/
theorem foldlM_initial {T : Ty} {read : T.Value → Read T.Value} {kind : Kind}
    {s : Slot kind T.Value}
    (hfold : fs.foldlM (fun s f => (readInto T read (Slot.getD s T.init) f).map (Slot.put kind))
      (Slot.initial T.init kind) = some s) :
    (fs = [] ∧ s = Slot.initial T.init kind) ∨
      (fs ≠ [] ∧ ∃ v, fs.foldlM (readInto T read) T.init = some v ∧ s = Slot.put kind v) := by
  cases fs with
  | nil =>
    cases hfold
    exact .inl ⟨rfl, rfl⟩
  | cons f fs =>
    obtain ⟨s₁, hs₁, hfold⟩ := bind_eq_some_iff.1 hfold
    obtain ⟨v₁, hv₁, rfl⟩ := map_eq_some_iff.1 hs₁
    rw [Slot.getD_initial] at hv₁
    obtain ⟨v', hv', rfl⟩ := foldlM_put hfold
    refine .inr ⟨cons_ne_nil _ _, v', ?_, rfl⟩
    exact bind_eq_some_iff.2 ⟨v₁, hv₁, hv'⟩

/-- The members of a message, read one after another. -/
def readFields (h : Head n) (types : Fin n → Ty) (left : ℕ) (fs : List (Field n))
    (m : Fields h types) : Option (Fields h types) :=
  fs.foldlM (fun m f => whole (readMembers h types (fun k => readValue (types k) left) f.slot
    f.type m) f.body) m

/-- A struct is cut into its members, and these are read. -/
theorem readStruct_fields (left : ℕ) (hrun : readStruct h types left m b = .ok (m', rest)) :
    ∃ fs, fieldsOf h (fun k => (types k).typeOf) left b = .ok (fs, rest) ∧
      readFields h types left fs m = some m' :=
  structWith_fields (readStruct_takes h types left) (readStruct_members h types left) hrun

/-- **A message is made up from all the bytes there are for it**, member by
member. -/
theorem foldlM_bodies {bodies : List Bytes}
    (hfold : bodies.foldlM (fun m b => whole (readStruct h types left m) b) m = some m') :
    readFields h types left (membersOf h (fun k => (types k).typeOf) left bodies) m = some m' := by
  induction bodies generalizing m with
  | nil => exact hfold
  | cons b bodies ih =>
    obtain ⟨m₁, hm₁, hfold⟩ := bind_eq_some_iff.1 hfold
    obtain ⟨fs, hfs, hm₁⟩ := readStruct_fields left (whole_eq_some.1 hm₁)
    have hcons : membersOf h (fun k => (types k).typeOf) left (b :: bodies)
        = fs ++ membersOf h (fun k => (types k).typeOf) left bodies := by
      rw [membersOf, flatMap_cons, hfs]
      rfl
    rw [hcons, readFields, List.foldlM_append, ← readFields, hm₁]
    exact ih hfold

end Slots

/-! ## Agreement -/

theorem rel_initial {V W : Type} {R : V → W → Prop} {v : V} {w : W} (h : R v w) (kind : Kind) :
    Option.Rel R (Slot.initial v kind).get? (Slot.initial w kind).get? := by
  cases kind with
  | optional => exact .none
  | required | defaulted => exact .some h

theorem agrees_init (P : Duo) : Agrees P P.eager.init P.lazy.init := by
  induction P with
  | same T => exact Eq.refl T.init
  | vectors E _ => exact Forall₂.nil
  | lists E _ =>
    intro xs hxs
    cases hxs
    exact ⟨[], holds_of_times (fun hne => absurd rfl hne) rfl, .nil⟩
  | vectorList E _ => exact ⟨[], holds_of_times (fun hne => absurd rfl hne) rfl, .nil⟩
  | lazies n h fields _ =>
    intro m hm
    cases hm
  | messages n h fields ih =>
    intro k
    exact rel_initial (ih k) (h.kind k)
  | messageLazy n h fields _ => exact .inl ⟨rfl, rfl⟩

/-- What a place comes to, read from all the bytes there are for it. -/
def readBodies (T : Ty) (left : ℕ) (bodies : List Bytes) : Option T.Value :=
  bodies.foldlM (fun v b => whole (readValue T left v) b) T.init

/-- Two models agree on whatever is given once. -/
def Agreeing (P : Duo) : Prop :=
  ∀ ⦃left bodies v v'⦄, readBodies P.eager left bodies = some v →
    readBodies P.lazy left bodies = some v' → GivenOnce P left bodies → Agrees P v v'

theorem Agreeing.readInto {P : Duo} (hP : Agreeing P) {n : ℕ} {fs : List (Field n)}
    {v : P.eager.Value} {v' : P.lazy.Value}
    (hv : fs.foldlM (readInto P.eager (readValue P.eager left)) P.eager.init = some v)
    (hv' : fs.foldlM (readInto P.lazy (readValue P.lazy left)) P.lazy.init = some v')
    (honce : GivenOnce P left (fs.map Field.body)) : Agrees P v v' := by
  by_cases hbool : P.eager = .bool
  · -- a `bool` is not in the bytes of its field, but then the models are one
    cases P with
    | same T => exact some_inj.1 (hv.symm.trans hv')
    | _ => cases hbool
  have hbool' : P.lazy ≠ .bool := by
    intro heq
    refine hbool (eq_bool_of_typeOf ?_)
    rw [← P.typeOf_lazy, heq]
    rfl
  refine @hP left (fs.map Field.body) v v' ?_ ?_ honce
  · rw [readBodies, foldlM_map, ← hv]
    congr 1
    funext out f
    rw [Tagged.readInto, readMember_of_ne hbool]
  · rw [readBodies, foldlM_map, ← hv']
    congr 1
    funext out f
    rw [Tagged.readInto, readMember_of_ne hbool']

section Message

variable {n : ℕ} {h : Head n} {fields : Fin n → Duo}
variable {m : Record h fun k => (fields k).eager.Value}

/-- **Messages agree slot by slot.** -/
theorem agrees_fields (hP : ∀ k, Agreeing (fields k)) {fs : List (Field n)}
    {m' : Record h fun k => (fields k).lazy.Value}
    (hm : readFields h _ left fs (Ty.message n h fun k => (fields k).eager).init = some m)
    (hm' : readFields h _ left fs (Ty.message n h fun k => (fields k).lazy).init = some m')
    (honce : ∀ k, GivenOnce (fields k) left (bodiesOf k fs)) :
    Agrees (.messages n h fields) m m' := by
  intro k
  have hs := foldlM_slot hm k
  have hs' := foldlM_slot hm' k
  rcases foldlM_initial hs with ⟨hnil, heq⟩ | ⟨hne, v, hv, heq⟩
  · rw [hnil] at hs'
    have heq' : m' k = Slot.initial (fields k).lazy.init (h.kind k) := (some_inj.1 hs').symm
    rw [heq, heq']
    exact rel_initial (agrees_init (fields k)) (h.kind k)
  · rcases foldlM_initial hs' with ⟨hnil, -⟩ | ⟨-, v', hv', heq'⟩
    · exact absurd hnil hne
    · rw [heq, heq', Slot.get?_put, Slot.get?_put]
      exact .some ((hP k).readInto hv hv' (honce k))

theorem agreeing_messages (hP : ∀ k, Agreeing (fields k)) : Agreeing (.messages n h fields) := by
  intro left bodies m m' hm hm' honce
  have hfold := foldlM_bodies hm
  have hfold' := foldlM_bodies hm'
  simp only [Duo.typeOf_lazy] at hfold'
  exact agrees_fields hP hfold hfold' honce


/-- A message that was kept gives what the eager model reads. -/
theorem agrees_decode (hP : ∀ k, Agreeing (fields k))
    (hm : readMessage h (fun k => (fields k).eager) left region = .ok (m, rest))
    (hskip : skipStruct left region = .ok ((), []))
    (honce : GivenOnce (.messages n h fields) (left + 1) [region]) :
    ∃ m', (LazyValue.wire region left).decode (readMessage h fun k => (fields k).lazy) = .ok m' ∧
      Agrees (.messages n h fields) m m' := by
  obtain ⟨u, hu⟩ := readStruct_follows h (fun k => (fields k).eager) left _ hm
  rw [hskip] at hu
  cases hu
  obtain ⟨m', hm'⟩ := readValue_lazy (.messages n h fields) (left + 1) _
    (Ty.message n h fun k => (fields k).lazy).init hm
  refine ⟨m', ?_, @agreeing_messages _ h _ hP (left + 1) [region] m m' ?_ ?_ honce⟩
  · exact bind_eq_ok.2 ⟨(m', []), hm', rfl⟩
  · exact bind_eq_some_iff.2 ⟨m, whole_eq_some.2 hm, rfl⟩
  · exact bind_eq_some_iff.2 ⟨m', whole_eq_some.2 hm', rfl⟩

end Message

theorem Agreeing.elems {E : Duo} (hE : Agreeing E) {ps : List Bytes}
    {xs : List E.eager.Value} {xs' : List E.lazy.Value}
    (hxs : ps.mapM (whole (E.eager.readElem left)) = some xs)
    (hxs' : ps.mapM (whole (E.lazy.readElem left)) = some xs')
    (honce : ∀ p ∈ ps, GivenOnce E left [p]) : List.Forall₂ (Agrees E) xs xs' := by
  induction ps generalizing xs xs' with
  | nil =>
    cases hxs
    cases hxs'
    exact .nil
  | cons p ps ih =>
    rw [mapM_cons] at hxs hxs'
    obtain ⟨x, hx, hxs⟩ := bind_eq_some_iff.1 hxs
    obtain ⟨ys, hys, hret⟩ := bind_eq_some_iff.1 hxs
    cases hret
    obtain ⟨x', hx', hxs'⟩ := bind_eq_some_iff.1 hxs'
    obtain ⟨ys', hys', hret⟩ := bind_eq_some_iff.1 hxs'
    cases hret
    refine .cons ?_ (ih hys hys' (forall_mem_cons.1 honce).2)
    refine @hE left [p] x x' ?_ ?_ (honce p mem_cons_self)
    · exact bind_eq_some_iff.2 ⟨x, hx, rfl⟩
    · exact bind_eq_some_iff.2 ⟨x', hx', rfl⟩

theorem foldlM_last {σ : Type} {f : σ → Bytes → Option σ} {bodies : List Bytes} {a v : σ}
    (hfold : bodies.foldlM f a = some v) :
    (bodies = [] ∧ v = a) ∨ ∃ b ∈ bodies.getLast?, ∃ a', f a' b = some v := by
  rcases eq_nil_or_concat bodies with rfl | ⟨bodies, b, rfl⟩
  · cases hfold
    exact .inl ⟨rfl, rfl⟩
  rw [concat_eq_append, List.foldlM_append] at hfold
  obtain ⟨a', -, hlast⟩ := bind_eq_some_iff.1 hfold
  obtain ⟨v', hv', hret⟩ := bind_eq_some_iff.1 hlast
  cases hret
  refine .inr ⟨b, ?_, a', hv'⟩
  rw [concat_eq_append, getLast?_append]
  rfl

section Elements

variable {T : Ty} {left : ℕ}

/-- The elements of a list are read from its pieces, if they are of the
type that is read. -/
theorem times_readElem_iff {count elem : ℕ} (hok : count ≠ 0 → wireOk T.typeOf elem = true)
    {xs : List T.Value} :
    times (T.readElem left) count region = .ok (xs, rest) ↔
      ∃ ps, times (cut (skip left elem true)) count region = .ok (ps, rest) ∧
        ps.mapM (whole (T.readElem left)) = some xs := by
  by_cases hzero : count = 0
  · subst hzero
    constructor
    · intro h
      cases h
      exact ⟨[], rfl, rfl⟩
    · rintro ⟨ps, h, hps⟩
      cases h
      cases hps
      rfl
  · exact times_split_iff ((skips_skip left).elem elem) (readValue_takes T left T.init)
      (readValue_follows T left elem T.init (hok hzero))

theorem pieces_eq {s mid : Bytes} {hd : ListHeader} (hhead : readListHeader s = .ok (hd, mid))
    (hskip : skipElems (skip left) hd mid = .ok ((), rest)) :
    times (cut (skip left hd.elem true)) hd.count mid = .ok (pieces left s, rest) := by
  obtain ⟨us, hus⟩ := skipElems_eq_ok.1 hskip
  obtain ⟨ps, hps⟩ := follows_times (follows_cut ((skips_skip left).elem hd.elem)) hd.count hus
  rw [pieces, hhead]
  dsimp only
  rw [hps]

theorem mapM_of_vector {out : (Ty.vector T).Value} {xs : List T.Value}
    (h : whole (readValue (.vector T) left out) b = some xs) :
    (pieces (left - 1) b).mapM (whole (T.readElem (left - 1))) = some xs := by
  obtain ⟨hd, mid, hhead, htimes⟩ := readVector_eq_ok.1 (whole_eq_some.1 h)
  obtain ⟨hraw, hok, -⟩ := readListOf_eq_ok.1 hhead
  have hskip := skipElems_of_times hhead (readValue_follows T _ _ _) htimes
  have hps := pieces_eq hraw hskip
  obtain ⟨ps, hps', hxs⟩ := (times_readElem_iff hok).1 htimes
  rw [hps] at hps'
  cases hps'
  exact hxs

theorem region_of_list {out : (Ty.list T).Value} {l : ListValue T.Value}
    (h : whole (readValue (.list T) left out) b = some l) :
    ∃ hd region, readListHeader b = .ok (hd, region) ∧
      l = .wire region hd.count hd.elem (left - 1) ∧
      (hd.count ≠ 0 → wireOk T.typeOf hd.elem = true) ∧
      times (cut (skip (left - 1) hd.elem true)) hd.count region
        = .ok (pieces (left - 1) b, []) := by
  obtain ⟨hd, mid, region, hhead, hregion, rfl⟩ := readList_eq_ok.1 (whole_eq_some.1 h)
  obtain ⟨hraw, hok, -⟩ := readListOf_eq_ok.1 hhead
  obtain ⟨hmid, u, hskip⟩ := (cut_eq_ok (takes_skipElems (skips_skip _) hd)).1 hregion
  rw [append_nil] at hmid
  subst hmid
  exact ⟨hd, _, hraw, rfl, hok, pieces_eq hraw hskip⟩

theorem region_of_lazy {n : ℕ} {h : Head n} {types : Fin n → Ty} {out l : (Ty.lazy n h types).Value}
    (hread : whole (readValue (.lazy n h types) left out) b = some l) :
    l = LazyValue.wire b (left - 1) ∧ skipStruct (left - 1) b = .ok ((), []) := by
  obtain ⟨region, hcut, rfl⟩ := readLazy_eq_ok.1 (whole_eq_some.1 hread)
  obtain ⟨hregion, u, hskip⟩ := (cut_eq_ok (takes_skipStruct _)).1 hcut
  rw [append_nil] at hregion
  subst hregion
  exact ⟨rfl, hskip⟩

end Elements

/-- Pieces that the eager model reads are read by the lazy one. -/
theorem mapM_lazy {E : Duo} {ps : List Bytes} {xs : List E.eager.Value}
    (hxs : ps.mapM (whole (E.eager.readElem left)) = some xs) :
    ∃ xs', ps.mapM (whole (E.lazy.readElem left)) = some xs' := by
  induction ps generalizing xs with
  | nil => exact ⟨[], rfl⟩
  | cons p ps ih =>
    rw [mapM_cons] at hxs
    obtain ⟨x, hx, hxs⟩ := bind_eq_some_iff.1 hxs
    obtain ⟨ys, hys, -⟩ := bind_eq_some_iff.1 hxs
    obtain ⟨x', hx'⟩ := readValue_lazy E left _ E.lazy.init (whole_eq_some.1 hx)
    obtain ⟨ys', hys'⟩ := ih hys
    refine ⟨x' :: ys', ?_⟩
    rw [mapM_cons]
    exact bind_eq_some_iff.2
      ⟨x', whole_eq_some.2 hx', bind_eq_some_iff.2 ⟨ys', hys', rfl⟩⟩

/-- A list that was kept gives what the eager model reads from its pieces. -/
theorem Agreeing.kept {E : Duo} (hE : Agreeing E) {count elem : ℕ}
    {ps : List Bytes} {xs : List E.eager.Value} (hok : count ≠ 0 → wireOk E.lazy.typeOf elem = true)
    (hps : times (cut (skip left elem true)) count region = .ok (ps, []))
    (hxs : ps.mapM (whole (E.eager.readElem left)) = some xs)
    (honce : ∀ p ∈ ps, GivenOnce E left [p]) :
    ∃ xs', (ListValue.wire region count elem left).Holds E.lazy.readElem xs' ∧
      List.Forall₂ (Agrees E) xs xs' := by
  obtain ⟨xs', hxs'⟩ := mapM_lazy hxs
  have htimes := (times_readElem_iff hok).2 ⟨ps, hps, hxs'⟩
  refine ⟨xs', holds_of_times ?_ htimes, hE.elems hxs hxs' honce⟩
  intro hne
  exact readValue_follows E.lazy left elem E.lazy.init (hok hne)

/-- Where the last of the bytes replaces what there was. -/
theorem agrees_of_last {P : Duo} {bodies : List Bytes} {v : P.eager.Value} {v' : P.lazy.Value}
    (hv : readBodies P.eager left bodies = some v) (hv' : readBodies P.lazy left bodies = some v')
    (hlast : ∀ b ∈ bodies.getLast?, ∀ out out', whole (readValue P.eager left out) b = some v →
      whole (readValue P.lazy left out') b = some v' → Agrees P v v') : Agrees P v v' := by
  rcases foldlM_last hv with ⟨rfl, rfl⟩ | ⟨b, hb, out, hread⟩
  · cases hv'
    exact agrees_init P
  · rcases foldlM_last hv' with ⟨rfl, -⟩ | ⟨b', hb', out', hread'⟩
    · cases hb
    · obtain rfl := mem_unique hb hb'
      exact hlast b hb out out' hread hread'

/-- **What is given once is the same in both models.** -/
theorem agreeing (P : Duo) : Agreeing P := by
  induction P with
  | same T =>
    intro left bodies v v' hv hv' _
    exact some_inj.1 (hv.symm.trans hv')
  | vectors E ih =>
    intro left bodies xs xs' hxs hxs' honce
    refine agrees_of_last hxs hxs' fun b hb out out' hread hread' => ?_
    exact ih.elems (mapM_of_vector hread) (mapM_of_vector hread') (honce b hb)
  | lists E ih =>
    intro left bodies l l' hl hl' honce
    refine agrees_of_last hl hl' fun b hb out out' hread hread' xs hxs => ?_
    obtain ⟨hd, region, hhead, rfl, hok, hps⟩ := region_of_list hread
    obtain ⟨hd', region', hhead', rfl, hok', -⟩ := region_of_list hread'
    rw [hhead] at hhead'
    cases hhead'
    obtain ⟨rest, htimes⟩ := times_of_toVector hxs
    obtain ⟨ps, hps', hmap⟩ := (times_readElem_iff hok).1 htimes
    rw [hps] at hps'
    cases hps'
    exact ih.kept hok' hps hmap (honce b hb)
  | vectorList E ih =>
    intro left bodies xs l' hxs hl' honce
    refine agrees_of_last hxs hl' fun b hb out out' hread hread' => ?_
    obtain ⟨hd, region, -, rfl, hok, hps⟩ := region_of_list hread'
    exact ih.kept hok hps (mapM_of_vector hread) (honce b hb)
  | lazies n h fields ih =>
    intro left bodies l l' hl hl' honce
    refine agrees_of_last hl hl' fun b hb out out' hread hread' m hm => ?_
    obtain ⟨rfl, hskip⟩ := region_of_lazy hread
    obtain ⟨rfl, -⟩ := region_of_lazy hread'
    obtain ⟨⟨m₁, rest⟩, hread, hret⟩ := bind_eq_ok.1 hm
    cases hret
    exact agrees_decode ih hread hskip (honce b hb)
  | messages n h fields ih => exact agreeing_messages ih
  | messageLazy n h fields ih =>
    intro left bodies m l' hm hl' honce
    obtain ⟨hlen, honce⟩ := honce
    rcases bodies with - | ⟨b, - | ⟨c, bodies⟩⟩
    · cases hm
      cases hl'
      exact agrees_init (.messageLazy n h fields)
    · obtain ⟨m₁, hm, hret⟩ := bind_eq_some_iff.1 hm
      cases hret
      obtain ⟨l₁, hl', hret⟩ := bind_eq_some_iff.1 hl'
      cases hret
      obtain ⟨rfl, hskip⟩ := region_of_lazy hl'
      exact .inr (agrees_decode ih (whole_eq_some.1 hm) hskip honce)
    · exact absurd hlen (by simp)

/-! ## The parser -/

/-- **Reading later agrees with reading at once.** Whatever the eager model
reads, the lazy one reads, up to the same byte, and where no message that is
kept is given twice, it has the same values to give. -/
theorem lazy_agrees_with_eager {n : ℕ} (h : Head n) (fields : Fin n → Duo) {b rest : Bytes}
    {m : Record h fun k => (fields k).eager.Value}
    (hm : thriftCompact h (fun k => (fields k).eager) b = .ok (m, rest)) :
    ∃ m', thriftCompact h (fun k => (fields k).lazy) b = .ok (m', rest) ∧
      ((∀ k, GivenOnce (fields k) (maxTaggedDepth + 1) (bodiesOf k
        (membersOf h (fun k => (fields k).eager.typeOf) (maxTaggedDepth + 1) [b]))) →
      ∀ k, Option.Rel (Agrees (fields k)) (m k).get? (m' k).get?) := by
  obtain ⟨m', hm'⟩ := readValue_lazy (.messages n h fields) (maxTaggedDepth + 2) _
    (Ty.message n h fun k => (fields k).lazy).init hm
  refine ⟨m', hm', ?_⟩
  intro honce
  -- both models cut the struct into the same members
  obtain ⟨fs, hfs, hfold⟩ := readStruct_fields (maxTaggedDepth + 1) hm
  obtain ⟨fs', hfs', hfold'⟩ := readStruct_fields (maxTaggedDepth + 1) hm'
  simp only [Duo.typeOf_lazy] at hfs'
  rw [hfs] at hfs'
  cases hfs'
  refine agrees_fields (fun k => agreeing (fields k)) hfold hfold' fun k => ?_
  have hmembers : membersOf h (fun k => (fields k).eager.typeOf) (maxTaggedDepth + 1) [b] = fs := by
    rw [membersOf, flatMap_cons, hfs, flatMap_nil, append_nil]
  rw [← hmembers]
  exact honce k

section Given

/-- A message with two optional numbers. -/
def pairHead : Head 2 where
  name := "Pair"
  field := fun k => if k = 0 then "a" else "b"
  id := fun k => k + 1
  kind := fun _ => .optional
  fields_le := by decide
  id_pos := by decide
  id_le := by decide
  ascending := by decide

/-- A message with such a message in it, which may be absent. -/
def outerHead : Head 1 where
  name := "Outer"
  field := fun _ => "inner"
  id := fun _ => 1
  kind := fun _ => .defaulted
  fields_le := by decide
  id_pos := by decide
  id_le := by decide
  ascending := by decide

/-- The inner message, read at once and kept. -/
def pairDuo : Duo := .messageLazy 2 pairHead fun _ => .same .i32

/-- What a message of two numbers has. -/
def bothOf (m : Record pairHead fun _ => BitVec 32) : Option (BitVec 32) × Option (BitVec 32) :=
  ((m 0).get?, (m 1).get?)

/-- **Given twice, the message is not the same**: the eager model has `a`
of the first and `b` of the second, and of what was kept there is only the
second. And a message that is not given at all is `M{}` in the one, where
the other has nothing to decode. -/
theorem lazy_differs_from_eager : ((thriftCompact outerHead (fun _ => pairDuo.eager)
        [0x1c, 0x15, 0x0a, 0x00, 0x0c, 0x02, 0x25, 0x0e, 0x00, 0x00]).map
          fun x => (bothOf (x.1 0), x.2)) = .ok ((some 5, some 7), []) ∧
    ((thriftCompact outerHead (fun _ => pairDuo.lazy)
        [0x1c, 0x15, 0x0a, 0x00, 0x0c, 0x02, 0x25, 0x0e, 0x00, 0x00]).bind
          fun x => (LazyValue.decode (readMessage pairHead fun _ => .i32) (x.1 0)).map bothOf)
      = .ok (none, some 7) ∧
    ((thriftCompact outerHead (fun _ => pairDuo.eager) [0x00]).map
          fun x => (bothOf (x.1 0), x.2)) = .ok ((none, none), []) ∧
    ((thriftCompact outerHead (fun _ => pairDuo.lazy) [0x00]).bind
          fun x => (LazyValue.decode (readMessage pairHead fun _ => .i32) (x.1 0)).map bothOf)
      = .error (.failed ⟨.truncated, 0, 1, none⟩) := by
  decide +kernel

/-- Given once, the message is the same. -/
theorem lazy_agrees_with_eager_once :
    ∃ m m', thriftCompact outerHead (fun _ => pairDuo.eager) [0x1c, 0x15, 0x0a, 0x00, 0x00]
        = .ok (m, []) ∧
      thriftCompact outerHead (fun _ => pairDuo.lazy) [0x1c, 0x15, 0x0a, 0x00, 0x00]
        = .ok (m', []) ∧
      ∀ k, Option.Rel (Agrees pairDuo) (m k).get? (m' k).get? := by
  have hread : ∃ m, thriftCompact outerHead (fun _ => pairDuo.eager)
      [0x1c, 0x15, 0x0a, 0x00, 0x00] = .ok (m, []) := ⟨_, rfl⟩
  obtain ⟨m, hm⟩ := hread
  obtain ⟨m', hm', hagree⟩ := lazy_agrees_with_eager outerHead (fun _ => pairDuo) hm
  refine ⟨m, m', hm, hm', hagree fun k => ⟨?_, fun _ => trivial⟩⟩
  revert k
  decide +kernel

end Given

end Nanom.Tagged
