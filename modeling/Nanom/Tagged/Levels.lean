import Nanom.Tagged.Lazy

/-!
# Thrift compact — the same value at another depth

A list or a message that was kept knows the depth it was read at, and may be
written at another. `Same` compares values by what there is to read in them,
and `readValue_at` says that bytes which are skipped at another depth are read
there too, as the same value.
-/

namespace Nanom.Tagged

open Nanom.Parser Function

variable {V α : Type} {count elem type : ℕ} {region s : Bytes}
variable {b rest rest' : Bytes} {left left' : ℕ}

/-- Two results that are both there, and related, or both not there. -/
def Alike {α β : Type} (R : α → β → Prop) (r : Except Stop α) (r' : Except Stop β) : Prop :=
  (∀ a, r = .ok a → ∃ b, r' = .ok b ∧ R a b) ∧ ∀ b, r' = .ok b → ∃ a, r = .ok a ∧ R a b

theorem alike_ok {β : Type} {R : α → β → Prop} {a : α} {b : β} (h : R a b) :
    Alike R (.ok a) (.ok b) := by
  constructor
  · intro a' ha
    cases ha
    exact ⟨b, rfl, h⟩
  · intro b' hb
    cases hb
    exact ⟨a, rfl, h⟩

/-- **The same value**: lists and messages that are kept are compared by
what they have to give. -/
def Same : (T : Ty) → T.Value → T.Value → Prop
  | .bool => fun v v' => v = v'
  | .i8 => fun v v' => v = v'
  | .i16 => fun v v' => v = v'
  | .i32 => fun v v' => v = v'
  | .i64 => fun v v' => v = v'
  | .dbl => fun v v' => v = v'
  | .enum => fun v v' => v = v'
  | .binary => fun v v' => v = v'
  | .vector E => fun (xs xs' : List E.Value) => List.Forall₂ (Same E) xs xs'
  | .list E => fun (l l' : ListValue E.Value) =>
    Alike (List.Forall₂ (Same E)) (l.toVector E.readElem) (l'.toVector E.readElem)
  | .lazy _ h types => fun (l l' : LazyValue (Fields h types)) =>
    Alike (fun m m' => ∀ k, Option.Rel (Same (types k)) (m k).get? (m' k).get?)
      (l.decode (readMessage h types)) (l'.decode (readMessage h types))
  | .emptyStruct => fun _ _ => True
  | .message _ h types => fun (m m' : Fields h types) =>
    ∀ k, Option.Rel (Same (types k)) (m k).get? (m' k).get?

theorem same_init (T : Ty) : Same T T.init T.init := by
  induction T with
  | vector E _ => exact List.Forall₂.nil
  | list E _ => exact alike_ok List.Forall₂.nil
  | lazy n h types _ => exact ⟨fun m hm => (nomatch hm), fun m hm => (nomatch hm)⟩
  | message n h types ih => exact fun k => rel_initial (ih k) (h.kind k)
  | emptyStruct => exact trivial
  | _ => rfl

theorem same_getD {T : Ty} {a b : Option T.Value} (h : Option.Rel (Same T) a b) :
    Same T (a.getD T.init) (b.getD T.init) := by
  cases h with
  | some h => exact h
  | none => exact same_init T

theorem rel_symm {R : V → V → Prop} (hR : ∀ v w, R v w → R w v) {a b : Option V}
    (h : Option.Rel R a b) : Option.Rel R b a := by
  cases h with
  | some h => exact .some (hR _ _ h)
  | none => exact .none

theorem Alike.symm {R : α → α → Prop} (hR : ∀ a b, R a b → R b a)
    {r r' : Except Stop α} (h : Alike R r r') : Alike R r' r := by
  constructor
  · intro b hb
    obtain ⟨a, ha, hab⟩ := h.2 b hb
    exact ⟨a, ha, hR a b hab⟩
  · intro a ha
    obtain ⟨b, hb, hab⟩ := h.1 a ha
    exact ⟨b, hb, hR a b hab⟩

theorem forall₂_symm {R : V → V → Prop} (hR : ∀ v w, R v w → R w v) (l l' : List V)
    (h : List.Forall₂ R l l') : List.Forall₂ R l' l := (h.imp hR).flip

theorem same_symm {T : Ty} (v w : T.Value) (h : Same T v w) : Same T w v := by
  induction T with
  | vector E ih => exact forall₂_symm ih v w h
  | list E ih => exact Alike.symm (forall₂_symm ih) h
  | lazy n hd types ih => exact Alike.symm (fun m m' hm k => rel_symm (ih k) (hm k)) h
  | message n hd types ih => exact fun k => rel_symm (ih k) (h k)
  | emptyStruct => exact trivial
  | _ => exact Eq.symm h

/-- What is read at one depth and skipped at another is read there, as the
same value. -/
def ReadAt (T : Ty) : Prop :=
  ∀ ⦃left left' type : ℕ⦄ ⦃out out' v : T.Value⦄ ⦃b rest rest' : Bytes⦄,
    wireOk T.typeOf type = true → Same T out out' → readValue T left out b = .ok (v, rest) →
    skip left' type true b = .ok ((), rest') →
    ∃ v', readValue T left' out' b = .ok (v', rest) ∧ Same T v v'

section Kept

variable {T : Ty}

section

variable (hT : ReadAt T) (hok : count ≠ 0 → wireOk T.typeOf elem = true)
include hT hok

theorem ReadAt.times {xs : List T.Value}
    {us : List Unit} (hxs : times (T.readElem left) count b = .ok (xs, rest))
    (hskip : times (skip left' elem true) count b = .ok (us, rest')) :
    ∃ xs', Parser.times (T.readElem left') count b = .ok (xs', rest) ∧
      List.Forall₂ (Same T) xs xs' := by
  by_cases hzero : count = 0
  · subst hzero
    cases hxs
    exact ⟨[], rfl, .nil⟩
  have hE := hok hzero
  refine times_sync ?_ hxs hskip
  intro b x u mid mid' hx hu
  obtain ⟨u', hu'⟩ := readValue_follows T left elem T.init hE hx
  obtain ⟨x', hx', hsame⟩ := hT hE (same_init T) hx hu
  exact ⟨skip_unique hu' hu, x', hx', hsame⟩

/-- A list whose bytes are kept is the same at both depths. -/
theorem ReadAt.kept (h : skipElems (skip left) ⟨count, elem⟩ region = .ok ((), []))
    (h' : skipElems (skip left') ⟨count, elem⟩ region = .ok ((), [])) :
    Same (.list T) (.wire region count elem left : ListValue T.Value)
      (.wire region count elem left' : ListValue T.Value) := by
  obtain ⟨us, hus⟩ := skipElems_eq_ok.1 h
  obtain ⟨us', hus'⟩ := skipElems_eq_ok.1 h'
  have hf : ∀ l, count ≠ 0 → Follows (skip l elem true) (T.readElem l) := fun l hne =>
    readValue_follows T l elem T.init (hok hne)
  constructor
  · intro xs hxs
    obtain ⟨rest, htimes⟩ := times_of_toVector hxs
    obtain ⟨xs', htimes', hall⟩ := hT.times hok htimes hus'
    exact ⟨xs', (holds_of_times (hf left') htimes').toVector, hall⟩
  · intro xs' hxs'
    obtain ⟨rest, htimes'⟩ := times_of_toVector hxs'
    obtain ⟨xs, htimes, hall⟩ := hT.times hok htimes' hus
    exact ⟨xs, (holds_of_times (hf left) htimes).toVector, forall₂_symm same_symm _ _ hall⟩

end

theorem ReadAt.member (hT : ReadAt T) {out out' v : T.Value}
    (hok : wireOk T.typeOf type = true) (hsame : Same T out out')
    (hv : readMember T (readValue T left) type out b = .ok (v, rest))
    (hskip : skip left' type false b = .ok ((), rest')) :
    ∃ v', readMember T (readValue T left') type out' b = .ok (v', rest) ∧ Same T v v' := by
  by_cases hbool : T = .bool
  · subst hbool
    cases hv
    exact ⟨_, rfl, rfl⟩
  · rw [readMember_of_ne hbool] at hv ⊢
    rw [skip_field (typeOf_ne_boolTrue hbool) (typeOf_ne_boolFalse T) hok] at hskip
    exact hT hok hsame hv hskip

end Kept

section Message

variable {n : ℕ} {h : Head n} {types : Fin n → Ty}

/-- A struct, read into records that are the same. -/
theorem readStruct_at (hT : ∀ k, ReadAt (types k)) {m m' v : Fields h types}
    (hsame : ∀ k, Option.Rel (Same (types k)) (m k).get? (m' k).get?)
    (hrun : readStruct h types left m b = .ok (v, rest))
    (hskip : skipStruct left' b = .ok ((), rest')) :
    ∃ v', readStruct h types left' m' b = .ok (v', rest) ∧
      ∀ k, Option.Rel (Same (types k)) (v k).get? (v' k).get? := by
  refine structWith_sync (R := fun m (m' : Fields h types) =>
    ∀ k, Option.Rel (Same (types k)) (m k).get? (m' k).get?)
    (readStruct_members h types left) ?_ hsame hrun hskip
  intro k type s t b s' mid hok hst hs hskipped
  obtain ⟨v, hv, rfl⟩ := readMembers_eq_ok.1 hs
  obtain ⟨v', hv', hvv'⟩ := (hT k).member hok (same_getD (hst k)) hv hskipped
  refine ⟨_, readMembers_eq_ok.2 ⟨v', hv', rfl⟩, ?_⟩
  intro j
  by_cases hj : j = k
  · subst hj
    rw [update_self, update_self, Slot.get?_put, Slot.get?_put]
    exact .some hvv'
  · rw [update_of_ne hj, update_of_ne hj]
    exact hst j

/-- A message whose bytes are kept is the same at both depths. -/
theorem same_lazy (hT : ∀ k, ReadAt (types k)) (hskip : skipStruct left region = .ok ((), rest))
    (hskip' : skipStruct left' region = .ok ((), rest')) :
    Same (.lazy n h types) (.wire region left : LazyValue (Fields h types))
      (.wire region left' : LazyValue (Fields h types)) := by
  have hinit := same_init (.message n h types)
  constructor
  · intro m hm
    obtain ⟨m₁, r, hread, hret⟩ := read_eq_ok.1 hm
    cases hret
    obtain ⟨m', hread', hsame⟩ := readStruct_at hT hinit hread hskip'
    exact ⟨m', read_eq_ok.2 ⟨m', r, hread', rfl⟩, hsame⟩
  · intro m' hm'
    obtain ⟨m₁, r, hread', hret⟩ := read_eq_ok.1 hm'
    cases hret
    obtain ⟨m, hread, hsame⟩ := readStruct_at hT hinit hread' hskip
    exact ⟨m, read_eq_ok.2 ⟨m, r, hread, rfl⟩, fun k => rel_symm same_symm (hsame k)⟩

end Message

theorem skipElems_of_skip {c : Bool} (htype : type = 9 ∨ type = 10)
    (h : skip left type c s = .ok ((), rest)) :
    left ≠ 0 ∧ ∃ hd mid, readListHeader s = .ok (hd, mid) ∧
      skipElems (skip (left - 1)) hd mid = .ok ((), rest) := by
  cases left with
  | zero => rcases htype with rfl | rfl <;> cases h
  | succ left =>
    have hlist : (readListHeader s >>= fun x => skipElems (skip left) x.1 x.2)
        = .ok ((), rest) := by
      rcases htype with rfl | rfl
      · exact h
      · exact h
    obtain ⟨hd, mid, hhead, hskip⟩ := read_eq_ok.1 hlist
    exact ⟨Nat.succ_ne_zero left, hd, mid, hhead, hskip⟩

theorem skipStruct_of_skip {c : Bool}
    (h : skip left 12 c s = .ok ((), rest)) : skipStruct (left - 1) s = .ok ((), rest) := by
  cases left with
  | zero => cases h
  | succ left => exact h

/-- **A value is the same at every depth** it can be read at. -/
theorem readValue_at (T : Ty) : ReadAt T := by
  induction T with
  | vector E ih =>
    intro left left' type out out' xs b rest rest' hok _ hrun hskip
    obtain ⟨hd, mid, hhead, htimes⟩ := readVector_eq_ok.1 hrun
    obtain ⟨hraw, helem, -⟩ := readListOf_eq_ok.1 hhead
    obtain ⟨hleft', hd', mid', hraw', hskip'⟩ := skipElems_of_skip (wireOk_list hok) hskip
    rw [hraw] at hraw'
    cases hraw'
    obtain ⟨us, hus⟩ := skipElems_eq_ok.1 hskip'
    obtain ⟨xs', htimes', hall⟩ := ih.times helem htimes hus
    exact ⟨xs', readVector_eq_ok.2
      ⟨hd, mid, readListOf_eq_ok.2 ⟨hraw, helem, hleft'⟩, htimes'⟩, hall⟩
  | list E ih =>
    intro left left' type out out' l b rest rest' hok _ hrun hskip
    obtain ⟨hd, mid, region, hhead, hcut, rfl⟩ := readList_eq_ok.1 hrun
    obtain ⟨hraw, helem, -⟩ := readListOf_eq_ok.1 hhead
    obtain ⟨hleft', hd', mid', hraw', hskip'⟩ := skipElems_of_skip (wireOk_list hok) hskip
    rw [hraw] at hraw'
    cases hraw'
    have htakes := fun l => takes_skipElems (skips_skip l) hd
    obtain ⟨rfl, u, hkept⟩ := (cut_eq_ok (htakes (left - 1))).1 hcut
    obtain ⟨v, hv⟩ := readValue_follows (.list E) left type out hok hrun
    obtain rfl := skip_unique hv hskip
    exact ⟨_, readList_eq_ok.2 ⟨hd, _, region, readListOf_eq_ok.2 ⟨hraw, helem, hleft'⟩,
      (cut_eq_ok (htakes (left' - 1))).2 ⟨rfl, (), hskip'⟩, rfl⟩,
      ih.kept helem ((htakes _).alone hkept) ((htakes _).alone hskip')⟩
  | lazy n h types ih =>
    intro left left' type out out' l b rest rest' hok _ hrun hskip
    obtain ⟨v, hv⟩ := readValue_follows (.lazy n h types) left type out hok hrun
    obtain rfl := skip_unique hv hskip
    obtain ⟨region, hcut, rfl⟩ := readLazy_eq_ok.1 hrun
    rw [wireOk_other (e := .strct) (by decide) (by decide) hok] at hskip
    have hskip' := skipStruct_of_skip hskip
    obtain ⟨rfl, u, hkept⟩ := (cut_eq_ok (takes_skipStruct _)).1 hcut
    exact ⟨_, readLazy_eq_ok.2 ⟨region, (cut_eq_ok (takes_skipStruct _)).2 ⟨rfl, (), hskip'⟩, rfl⟩,
      same_lazy ih ((takes_skipStruct _).alone hkept) ((takes_skipStruct _).alone hskip')⟩
  | emptyStruct =>
    intro left left' type out out' v b rest rest' hok _ hrun hskip
    obtain ⟨u, hu⟩ := readValue_follows .emptyStruct left type out hok hrun
    obtain rfl := skip_unique hu hskip
    rw [wireOk_other (by decide) (by decide) hok] at hskip
    exact ⟨(), skipStruct_of_skip hskip, trivial⟩
  | message n h types ih =>
    intro left left' type out out' m b rest rest' hok hsame hrun hskip
    rw [wireOk_other (e := .strct) (by decide) (by decide) hok] at hskip
    exact readStruct_at ih hsame hrun (skipStruct_of_skip hskip)
  | _ =>
    intro left left' type out out' v b rest rest' _ _ hrun _
    exact ⟨v, hrun, rfl⟩

end Nanom.Tagged
