import Nanom.Codec.Model
import Nanom.Codec.Reference

/-!
# What the decoders share

Both decoders keep the same relation to their plain counterparts: the input
left is what lies behind `ip`, the output so far what lies before `op` (`Sim`).
Here are the reads of the input, and the two ways to copy a back-reference,
each a number of chunks in the sense of `Repeats`.
-/

namespace Nanom.Codec

open List

open Loop (Round forBy forBy_inv)

variable {k op : ℕ}
variable {n : ℕ}

/-- The errors a decoder reports. -/
def Stop.Reported (e : Stop) : Prop := ∃ err, e = .fail err

theorem reported_fail {α : Type} {β : Type*} {S : α → β → Prop} (what : String) (pos : ℕ) :
    Refines Stop.Reported S (fail what pos) none := .error ⟨_, rfl⟩

/-- **The relation of a decoder to the plain one.** -/
structure Sim (input : Bytes) (c : Cursor n) (t : Plain) : Prop where
  ip_le : c.ip ≤ input.length
  op_le : c.op ≤ n
  rest : t.rest = input.drop c.ip
  produced : t.produced = c.buf.elems.take c.op

/-- **A decoder whose rounds match those of a plain one** gives what that
one gives: each round takes at least a byte of the input, so the bound on
the rounds is never met. -/
theorem decodeLoop_refines {Q : ℕ × Buffer UInt8 n → Bytes → Prop} {input rest : Bytes}
    {c : Cursor n} {round : Cursor n → Round (Cursor n) (Status n)}
    {plain : Plain → Round Plain (Option Bytes)} (h : ∀ c t, Sim input c t →
      Round.Rel (fun c' t' => Sim input c' t' ∧ input.length - c'.ip < input.length - c.ip)
        (Refines Stop.Reported Q) (round c) (plain t)) (hc : Sim input c ⟨rest, []⟩) :
    Refines Stop.Reported Q (decodeLoop round input c) (plainLoop plain input rest) := by
  obtain ⟨r, q, hr, hq, hrq⟩ := Loop.run_sim (fun c : Cursor n => input.length - c.ip) h hc
    (k := input.length + 1) (by omega)
  rw [decodeLoop, plainLoop, hr, hq]
  exact hrq

/-! ## Reads -/

section Reads

variable {input : Bytes} {p : ℕ}

theorem u8_eq (h : p < input.length) : u8 input p = .ok input[p].toNat := by
  rw [u8, getElem?_eq_getElem h]
  rfl

theorem orBytes_eq (h : p + k ≤ input.length) :
    orBytes input p k = .ok (leNat (subspan input p k)) := by
  induction k with
  | zero => rfl
  | succ k ih =>
    have hread := ih (by omega)
    have hlen : (subspan input p k).length = k := length_subspan (by omega)
    have hlt := leNat_lt (subspan input p k)
    have hsplit : subspan input p (k + 1) = subspan input p k ++ [input[p + k]] := by
      rw [subspan, take_add_one, getElem?_drop, getElem?_eq_getElem (by omega)]
      rfl
    have hpow : 256 ^ k = 2 ^ (8 * k) := by rw [Nat.pow_mul]
    rw [hlen, hpow] at hlt
    rw [orBytes] at hread
    rw [orBytes, range_succ, List.foldlM_append, hread]
    simp only [foldlM_cons, bind, Except.bind, pure]
    rw [u8_eq (by omega), hsplit, leNat_append, hlen, hpow]
    simp only [leNat_cons, Nat.shiftLeft_eq]
    rw [Nat.or_comm, mul_comm _ (2 ^ (8 * k)), ← Nat.two_pow_add_eq_or_of_lt hlt, add_comm]
    rfl

theorem loadLe32_eq (h : p + 4 ≤ input.length) :
    loadLe32 input p = .ok (leNat (subspan input p 4)) := by
  rw [loadLe32, if_pos h]
  rfl

theorem takeLe_drop (h : p + k ≤ input.length) :
    takeLe k (input.drop p) = some (leNat (subspan input p k), input.drop (p + k)) := by
  rw [takeLe, length_drop, if_pos (by omega), drop_drop]
  rfl

theorem takeLe_drop_of_lt (h : input.length < p + k) (hp : p ≤ input.length) :
    takeLe k (input.drop p) = none := by
  rw [takeLe, length_drop, if_neg (by omega)]

theorem leNat_subspan_one (h : p < input.length) : leNat (subspan input p 1) = input[p].toNat := by
  rw [subspan, take_one, head?_drop, getElem?_eq_getElem h]
  exact leNat_cons input[p] []

theorem takeLe_refines {α : Type} {S : α → ℕ × Bytes → Prop} (what : String) {r : Except Stop α}
    (hp : p ≤ input.length) (hr : p + k ≤ input.length →
      ∃ a, r = .ok a ∧ S a (leNat (subspan input p k), input.drop (p + k))) :
    Refines Stop.Reported S (if input.length - p < k then fail what p else r)
      (takeLe k (input.drop p)) := by
  split
  · rw [takeLe_drop_of_lt (by omega) hp]
    exact reported_fail _ _
  · obtain ⟨a, rfl, ha⟩ := hr (by omega)
    rw [takeLe_drop (by omega)]
    exact .ok ha

theorem pred64_lt_iff {x y : ℕ} (hx : x < 2 ^ 64) (hy : y < 2 ^ 64) :
    pred64 x < y ↔ 1 ≤ x ∧ x ≤ y := by
  rw [pred64, u64]
  omega

end Reads

/-! ## Literals -/

section Literals

variable {input : Bytes} {c : Cursor n} {len ip : ℕ}

theorem load_loads (b : Buffer UInt8 n) (hsrc : ip + k ≤ input.length) (hroom : op + k ≤ n) :
    ∃ b', b.load input op ip k = some b' ∧ Loads b b' op (input.drop ip) k := by
  have h := (Loads.refl b op (input.drop ip)).load (by omega) (by omega)
  rwa [zero_add] at h

theorem literal_of_loads (len : ℕ) {b b' : Buffer UInt8 n} (h : Loads b b' op (input.drop ip) k)
    (hlen : len ≤ k) (hsrc : ip + len ≤ input.length) (hroom : op + len ≤ n) :
    Plain.literal n len ⟨input.drop ip, b.elems.take op⟩
      = some ⟨input.drop (ip + len), b'.elems.take (op + len)⟩ := by
  have hput := (h.mono hlen).putAll_eq (by rw [length_drop]; omega) hroom
  rw [Plain.literal, if_pos (by rw [length_drop]; omega), hput, ← drop_drop]
  rfl

/-- **A checked literal is the plain one**, and fails where the input
breaks off or the output has no room. -/
theorem literal_refines (past overflow : String) {r : Except Stop (Buffer UInt8 n)}
    (hip : ip ≤ input.length) (hop : c.op ≤ n) (hr : ip + len ≤ input.length → c.op + len ≤ n →
      ∃ b', r = .ok b' ∧ Loads c.buf b' c.op (input.drop ip) len) :
    Refines Stop.Reported (fun c' t => Sim input c' t ∧ ip + len = c'.ip)
      (if input.length - ip < len then fail past ip
        else if n - c.op < len then fail overflow ip
        else r >>= fun buf => pure ⟨ip + len, c.op + len, buf⟩)
      (Plain.literal n len ⟨input.drop ip, c.buf.elems.take c.op⟩) := by
  by_cases hin : input.length - ip < len
  · rw [if_pos hin, Plain.literal, if_neg (by rw [length_drop]; omega)]
    exact reported_fail _ _
  rw [if_neg hin]
  by_cases hout : n - c.op < len
  · have hnone : putAll n ((input.drop ip).take len) (c.buf.elems.take c.op) = none := by
      refine putAll_of_lt (by rw [Buffer.length_take hop]; exact hop) ?_
      rw [Buffer.length_take hop, length_take, length_drop]
      omega
    rw [if_pos hout, Plain.literal, if_pos (by rw [length_drop]; omega), hnone]
    exact reported_fail _ _
  · obtain ⟨b', rfl, hloads⟩ := hr (by omega) (by omega)
    rw [if_neg hout, literal_of_loads len hloads (le_refl len) (by omega) (by omega)]
    exact .ok ⟨⟨by dsimp only; omega, by dsimp only; omega, rfl, rfl⟩, rfl⟩

end Literals

/-! ## Copies -/

section Copies

variable {b₀ b : Buffer UInt8 n} {dst offset first : ℕ}

theorem forBy_memcpy (last : ℕ) {m c : ℕ} (h : Repeats b₀ b dst offset first) (hpos : 0 < c)
    (hoff : offset ≤ dst) (hc : c ≤ (m + 1) * offset) (hm : (m + 1) * offset ≤ first + offset)
    (hroom : ∀ i, i < last → c ∣ i - first → dst + i + c ≤ n) :
    ∃ b', forBy c first last (fun i => Buffer.memcpy (dst + i) ((m + 1) * offset) c) b
        = some b' ∧
      Repeats b₀ b' dst offset last := by
  obtain ⟨i, b', hi, hrun, -, -, hrep⟩ := forBy_inv first last
    (P := fun i b => first ≤ i ∧ c ∣ i - first ∧ Repeats b₀ b dst offset i) hpos
    (fun i b hi ⟨hfirst, hdvd, hrep⟩ => by
      obtain ⟨b', hb', hrep'⟩ := hrep.memcpy hoff hc (by omega) (hroom i hi hdvd)
      refine ⟨b', hb', by omega, ?_, hrep'⟩
      rw [Nat.sub_add_comm hfirst]
      exact Nat.dvd_add hdvd (Nat.dvd_refl c))
    ⟨le_refl _, by rw [Nat.sub_self]; exact Nat.dvd_zero c, h⟩
  exact ⟨b', hrun, hrep.mono hi⟩

theorem forBy_assign (last : ℕ) (h : Repeats b₀ b dst offset first) (hpos : 0 < offset)
    (hoff : offset ≤ dst) (hroom : dst + last ≤ n) :
    ∃ b', forBy 1 first last (fun i => Buffer.assign (dst + i) offset) b = some b' ∧
      Repeats b₀ b' dst offset last := by
  obtain ⟨i, b', hi, hrun, hrep⟩ := forBy_inv first last
    (P := fun i b => Repeats b₀ b dst offset i) Nat.one_pos
    (fun i b hi hrep => hrep.assign hpos hoff (by omega)) h
  exact ⟨b', hrun, hrep.mono hi⟩

theorem copyMatch_repeats (len : ℕ) (b : Buffer UInt8 n) (hpos : 0 < offset)
    (hoff : offset ≤ dst) (hroom : dst + len ≤ n) :
    ∃ b', copyMatch dst offset len b = some b' ∧ Repeats b b' dst offset len := by
  have hzero := Repeats.refl b dst offset
  rw [copyMatch]
  split
  · -- the whole match at once
    have h := hzero.memcpy (m := 0) (c := len) hoff (by omega) (by omega) (by omega)
    simpa only [zero_add, one_mul, add_zero] using h
  split
  · obtain ⟨b₁, hb₁, h₁⟩ := forBy_memcpy (len / 8 * 8) (m := 0) (c := 8) hzero
      (by omega) hoff (by omega) (by omega) (fun i hi hdvd => by omega)
    rw [Nat.one_mul] at hb₁
    rw [hb₁]
    exact forBy_assign len h₁ hpos hoff hroom
  · exact forBy_assign len hzero hpos hoff hroom

/-- The lag of a short offset is a multiple of it, and long enough for a
chunk of eight. -/
theorem lag_eq (hpos : 0 < offset) (hlt : offset < 8) :
    ∃ m, offset * ((8 + offset - 1) / offset) = (m + 1) * offset ∧
      8 ≤ (m + 1) * offset ∧ (m + 1) * offset ≤ 8 + offset := by
  have hdiv := Nat.div_add_mod (8 + offset - 1) offset
  have hmod := Nat.mod_lt (8 + offset - 1) hpos
  have hone : 1 ≤ (8 + offset - 1) / offset := Nat.div_pos (by omega) hpos
  refine ⟨(8 + offset - 1) / offset - 1, ?_⟩
  rw [Nat.sub_add_cancel hone, mul_comm _ offset]
  exact ⟨rfl, by omega, by omega⟩

/-- `copy_match_wild` repeats what is `offset` back, where the output has
room for the overshoot. -/
theorem copyMatchWild_repeats (len : ℕ) (b : Buffer UInt8 n) (hpos : 0 < offset)
    (hoff : offset ≤ dst) (hroom : dst + len + 15 ≤ n) :
    ∃ b', copyMatchWild dst offset len b = some b' ∧ Repeats b b' dst offset len := by
  have hzero := Repeats.refl b dst offset
  rw [copyMatchWild]
  split
  · have h := forBy_memcpy len (m := 0) (c := 16) hzero (by omega) hoff (by omega)
      (by omega) (fun i hi _ => by omega)
    simpa only [zero_add, one_mul] using h
  split
  · have h := forBy_memcpy len (m := 0) (c := 8) hzero (by omega) hoff (by omega)
      (by omega) (fun i hi _ => by omega)
    simpa only [zero_add, one_mul] using h
  rw [if_neg (by omega)]
  obtain ⟨m, hlag, hge, hle⟩ := lag_eq hpos (by omega)
  -- the first eight bytes one by one; a shorter match ends there
  obtain ⟨b₁, hb₁, h₁⟩ := forBy_assign (if len < 8 then len else 8) hzero hpos hoff
    (by split <;> omega)
  dsimp only
  rw [hb₁, hlag]
  by_cases hlen : len < 8
  · rw [if_pos hlen] at h₁ ⊢
    refine ⟨b₁, ?_, h₁⟩
    change forBy 8 len len _ b₁ = some b₁
    rw [forBy, Nat.sub_self]
    rfl
  · rw [if_neg hlen] at h₁ ⊢
    exact forBy_memcpy len h₁ (by omega) hoff hge hle (fun i hi _ => by omega)

/-- **A checked back-reference is the plain one**, byte for byte, and
fails where the plain one has no room. -/
theorem copyBack_refines (what : String) {len ip : ℕ} (b : Buffer UInt8 n) (hpos : 0 < offset)
    (hoff : offset ≤ op) (hop : op ≤ n) (hlen : len + 16 < 2 ^ 64) :
    Refines Stop.Reported (fun b' out => op + len ≤ n ∧ out = b'.elems.take (op + len))
      (copyBack what offset len ip op b) (copyBytes n offset len (b.elems.take op)) := by
  rw [copyBack, u64_of_lt hlen]
  split
  · obtain ⟨b', hb', h⟩ := copyMatchWild_repeats len b hpos hoff (by omega)
    rw [hb', h.copyBytes_eq hpos hoff (by omega)]
    exact .ok ⟨by omega, rfl⟩
  split
  · rw [copyBytes_of_lt (by rw [Buffer.length_take hop]; exact hop)
      (by rw [Buffer.length_take hop]; omega)]
    exact reported_fail _ _
  · obtain ⟨b', hb', h⟩ := copyMatch_repeats len b hpos hoff (by omega)
    rw [hb', h.copyBytes_eq hpos hoff (by omega)]
    exact .ok ⟨by omega, rfl⟩

end Copies

end Nanom.Codec
