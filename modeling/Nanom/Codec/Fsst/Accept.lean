import Nanom.Codec.Fsst.RoundTrip
import Nanom.Common.Parsing

/-!
# FSST — which tables are accepted

`Exact` is what a reader of tables is for: the well-formed ones are taken and
no others, a refused one leaves the output alone, and a code decodes to the
bytes declared for it. `exact_iff` says where `parse_symbol_table` is that: the
magic is compared under its own bits only, and a table without the encoder
switch has its codes copied.
-/

namespace Nanom.Codec.Fsst

open List Nanom.Parser Nat

variable {bytes : Bytes} {t : SymbolTable} {n : ℕ}

/-- What is in `out` behind `parse_symbol_table`: it is assigned last, so only
on success. -/
def symbolTableAfter (bytes : Bytes) (out : SymbolTable) : SymbolTable :=
  (parseSymbolTable bytes).toOption.getD out

/-- The header. -/
def headerOf (bytes : Bytes) : ℕ := leNat (subspan bytes 0 8)

/-- The symbols the header declares. -/
def declaredCount (bytes : Bytes) : ℕ := headerOf bytes &&& 0xFF

/-- The length declared for a code. -/
def declaredLength (bytes : Bytes) (code : ℕ) : ℕ :=
  (bytes.getD (8 + declaredCount bytes * 8 + code) 0).toNat

/-- The bytes declared for a code. -/
def declared (bytes : Bytes) (code : ℕ) : Bytes :=
  subspan bytes (8 + code * 8) (declaredLength bytes code)

/-- The size of a table, with symbols of one to eight bytes. -/
structure Framed (bytes : Bytes) : Prop where
  size : bytes.length = 2312
  lengths : ∀ code < declaredCount bytes,
    1 ≤ declaredLength bytes code ∧ declaredLength bytes code ≤ 8

/-- A table as the format has it: the top half of its header is "FSST". -/
structure WellFormed (bytes : Bytes) : Prop extends Framed bytes where
  magic : headerOf bytes >>> 32 = 0x46535354

/-- What is asked of a reader of tables. -/
structure Exact (bytes : Bytes) : Prop where
  accepts : (∃ t, parseSymbolTable bytes = .ok t) ↔ WellFormed bytes
  unchanged : ∀ stop, parseSymbolTable bytes = .error stop →
    ∀ out, symbolTableAfter bytes out = out
  decodes : ∀ t, parseSymbolTable bytes = .ok t → ∀ code < declaredCount bytes,
    ∀ (n : ℕ) (buf : Buffer UInt8 n), maxDecodedSize 1 ≤ n →
      ∃ buf', decode t [UInt8.ofNat code] buf = .ok ((declared bytes code).length, buf') ∧
        buf'.elems.take (declared bytes code).length = declared bytes code

/-- The table that is read. -/
def tableOf (bytes : Bytes) : SymbolTable where
  passthrough := headerOf bytes &&& kEncoderSwitchBit = 0
  symbolCount := declaredCount bytes
  symbols := (List.range (declaredCount bytes)).map fun i => subspan bytes (8 + i * 8) 8
  lengths := (List.range (declaredCount bytes)).map (declaredLength bytes)

theorem declaredCount_le (bytes : Bytes) : declaredCount bytes ≤ 255 := and_le_right

theorem declared_lt (h : bytes.length = 2312) {code : ℕ} (hcode : code < declaredCount bytes) :
    8 + declaredCount bytes * 8 + code < bytes.length := by
  have := declaredCount_le bytes
  omega

theorem symbolLength_eq_ok {pos l : ℕ} (hpos : pos < bytes.length) :
    symbolLength bytes pos = .ok l ↔ (1 ≤ (bytes.getD pos 0).toNat ∧ (bytes.getD pos 0).toNat ≤ 8)
        ∧ l = (bytes.getD pos 0).toNat := by
  have hget : bytes.getD pos 0 = bytes[pos] := by simp [hpos]
  rw [symbolLength, u8_eq hpos, ok_bind, hget, kMaxSymbolLength]
  refine check_eq_ok.trans ?_
  rw [show (pure bytes[pos].toNat : Except Stop ℕ) = .ok bytes[pos].toNat from rfl, Except.ok.injEq]
  omega

/-- **What is accepted**: the header need only have the bits of the
magic. -/
theorem parseSymbolTable_eq_ok_iff :
    parseSymbolTable bytes = .ok t ↔
      Framed bytes ∧ headerOf bytes &&& kMagic = kMagic ∧ t = tableOf bytes := by
  have hread : bytes.length = 2312 → ∀ i ∈ range (declaredCount bytes), ∀ l,
      symbolLength bytes (8 + declaredCount bytes * 8 + i) = .ok l ↔
        (1 ≤ declaredLength bytes i ∧ declaredLength bytes i ≤ 8) ∧ l = declaredLength bytes i :=
    fun hsize i hi l => symbolLength_eq_ok (declared_lt hsize (mem_range.1 hi))
  constructor
  · intro h
    obtain ⟨hsize, h⟩ := check_eq_ok.1 h
    obtain ⟨hmagic, h⟩ := check_eq_ok.1 h
    obtain ⟨lengths, hl, h⟩ := bind_eq_ok.1 h
    cases h
    obtain ⟨hall, rfl⟩ := (mapM_checked (hread (not_not.1 hsize))).1 hl
    exact ⟨⟨not_not.1 hsize, fun i hi => hall i (mem_range.2 hi)⟩, not_not.1 hmagic, rfl⟩
  · rintro ⟨hf, hmagic, rfl⟩
    refine check_eq_ok.2 ⟨not_not.2 hf.size, check_eq_ok.2 ⟨not_not.2 hmagic, ?_⟩⟩
    exact bind_eq_ok.2 ⟨_, (mapM_checked (hread hf.size)).2
      ⟨fun i hi => hf.lengths i (mem_range.1 hi), rfl⟩, rfl⟩

theorem WellFormed.and_kMagic (h : WellFormed bytes) : headerOf bytes &&& kMagic = kMagic := by
  have hm := h.magic
  refine eq_of_testBit_eq fun i => ?_
  rw [kMagic, testBit_and, testBit_shiftLeft]
  by_cases hi : 32 ≤ i
  · have hbit : (headerOf bytes).testBit i = testBit 0x46535354 (i - 32) := by
      rw [← hm, Nat.testBit_shiftRight, Nat.add_sub_cancel' hi]
    rw [hbit]
    simp [hi]
  · simp [hi]

section Codes

variable (hf : Framed bytes) {code : ℕ} (hcode : code < declaredCount bytes)

include hf hcode

theorem length_declared : (declared bytes code).length = declaredLength bytes code := by
  have hlt := declared_lt hf.size hcode
  have hle := (hf.lengths code hcode).2
  exact length_subspan (by omega)

theorem decode_declared (hswitch : headerOf bytes &&& kEncoderSwitchBit ≠ 0)
    (hroom : maxDecodedSize 1 ≤ n) (buf : Buffer UInt8 n) :
    ∃ buf', decode (tableOf bytes) [UInt8.ofNat code] buf
        = .ok ((declared bytes code).length, buf') ∧
      buf'.elems.take (declared bytes code).length = declared bytes code := by
  have hlen := length_declared hf hcode
  have hle := (hf.lengths code hcode).2
  have hcount := declaredCount_le bytes
  have hlt := declared_lt hf.size hcode
  have htoNat : (UInt8.ofNat code).toNat = code := by
    rw [UInt8.toNat_ofNat', mod_eq_of_lt (by omega)]
  have hsays : (tableOf bytes).Says
      fun c => if c = code then some (declared bytes code) else none := by
    refine ⟨decide_eq_false hswitch, fun c s hs => ?_⟩
    split at hs
    · subst c
      cases hs
      refine ⟨hcode, ?_, subspan bytes (8 + code * 8) 8, ?_, length_subspan (by omega), ?_⟩
      · simp [tableOf, hcode, hlen]
      · simp [tableOf, hcode]
      · rw [hlen, declared, subspan, subspan, take_take, min_eq_left hle]
    · cases hs
  refine decode_of_expand hsays ?_ hroom buf
  rw [expand_symbol (by rw [htoNat, kEscape]; omega), htoNat, if_pos rfl]
  simp [expand]

end Codes

theorem decode_copies (hp : t.passthrough = true) (c : UInt8) (hroom : maxDecodedSize 1 ≤ n)
    (buf : Buffer UInt8 n) :
    ∃ buf', decode t [c] buf = .ok (1, buf') ∧ buf'.elems.take 1 = [c] := by
  have hone : 1 ≤ n := by rw [maxDecodedSize, kMaxSymbolLength] at hroom; omega
  obtain ⟨buf', hstore, htake⟩ := Buffer.take_store (b := buf) (l := [c]) (k := 1)
    (show 0 + [c].length ≤ n from hone) (le_refl 1)
  refine ⟨buf', ?_, htake⟩
  have hload : buf.load [c] 0 0 1 = some buf' := by
    rw [Buffer.load, if_pos (by simp [hone]), ← hstore]
    rfl
  rw [decode, if_neg (by simpa using hroom), decodeUnchecked, if_pos hp]
  simp [hload]
  rfl

/-- **Where tables are read exactly**: a header that has the magic's bits
has no others in its top half, and a table without the switch declares
each code as the byte it is. -/
theorem exact_iff :
    Exact bytes ↔ (Framed bytes → headerOf bytes &&& kMagic = kMagic →
      headerOf bytes >>> 32 = 0x46535354 ∧ (headerOf bytes &&& kEncoderSwitchBit = 0 →
          ∀ code < declaredCount bytes, declared bytes code = [UInt8.ofNat code])) := by
  constructor
  · intro h hf hmagic
    have hparse := parseSymbolTable_eq_ok_iff.2 ⟨hf, hmagic, rfl⟩
    refine ⟨(h.accepts.1 ⟨_, hparse⟩).magic, fun hoff code hcode => ?_⟩
    obtain ⟨b, hdecode, htake⟩ := h.decodes _ hparse code hcode 16 (.zeros 16) (by decide)
    obtain ⟨b', hcopy, hone⟩ := decode_copies (t := tableOf bytes) (n := 16)
      (decide_eq_true hoff) (UInt8.ofNat code) (by decide) (.zeros 16)
    obtain ⟨hlen, rfl⟩ := Prod.mk.inj (Except.ok.inj (hdecode.symm.trans hcopy))
    rw [← htake, hlen, hone]
  · intro h
    refine ⟨⟨?_, fun hw => ⟨_, parseSymbolTable_eq_ok_iff.2 ⟨hw.toFramed, hw.and_kMagic, rfl⟩⟩⟩,
      fun stop hstop out => by rw [symbolTableAfter, hstop]; rfl, ?_⟩
    · rintro ⟨t, ht⟩
      obtain ⟨hf, hmagic, -⟩ := parseSymbolTable_eq_ok_iff.1 ht
      exact ⟨hf, (h hf hmagic).1⟩
    · intro t ht code hcode n buf hroom
      obtain ⟨hf, hmagic, rfl⟩ := parseSymbolTable_eq_ok_iff.1 ht
      by_cases hoff : headerOf bytes &&& kEncoderSwitchBit = 0
      · rw [(h hf hmagic).2 hoff code hcode]
        exact decode_copies (decide_eq_true hoff) _ hroom buf
      · exact decode_declared hf hcode hoff hroom buf

/-- A table with no symbols, whose header is all ones in the top half, is
accepted. -/
theorem foreign_magic_accepted :
    ¬ Exact (leBytes 8 (0xFFFFFFFF <<< 32) ++ List.replicate 2304 0) := by
  intro h
  have hzero : declaredCount (leBytes 8 (0xFFFFFFFF <<< 32) ++ List.replicate 2304 0) = 0 := by
    decide +kernel
  have hf : Framed (leBytes 8 (0xFFFFFFFF <<< 32) ++ List.replicate 2304 0) :=
    ⟨by decide +kernel, fun code hcode => absurd hcode (not_lt.2 (hzero ▸ zero_le code))⟩
  have hparse := parseSymbolTable_eq_ok_iff.2 ⟨hf, by decide +kernel, rfl⟩
  have hmagic := (h.accepts.1 ⟨_, hparse⟩).magic
  revert hmagic
  decide +kernel

end Nanom.Codec.Fsst
