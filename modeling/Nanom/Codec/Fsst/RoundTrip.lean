import Mathlib.Data.Nat.Bitwise
import Nanom.Codec.Copy
import Nanom.Codec.Fsst.Table

/-!
# FSST — what is compressed is read back

`expand` is the plain reading of a string of codes. A sound table's
serialization is parsed to a table that says the same of every code
(`parseSymbolTable_serialize`), decoding is the plain reading
(`decode_of_expand`), and compression keeps the codes it has written a reading
of the bytes it has passed (`Packer.Reads`).
-/

namespace Nanom.Codec.Fsst

open List Nat Option UInt8

open Loop (repeatWhile repeatWhile_inv)

variable {n : ℕ} {e : Encoder}

/-! ## Codes -/

/-- **The plain reading of codes**: an escape stands for the byte behind
it, any other code for its symbol. -/
def expand (symbol : ℕ → Option Bytes) : Bytes → Option Bytes
  | [] => some []
  | [code] => if code.toNat = kEscape then none else symbol code.toNat
  | code :: b :: rest =>
    if code.toNat = kEscape then (expand symbol rest).map (b :: ·)
    else (symbol code.toNat).bind fun s => (expand symbol (b :: rest)).map (s ++ ·)

section Expand

variable {symbol : ℕ → Option Bytes}

theorem expand_escape {code : UInt8} (h : code.toNat = kEscape) (b : UInt8) (rest : Bytes) :
    expand symbol (code :: b :: rest) = (expand symbol rest).map (b :: ·) := by
  rw [expand, if_pos h]

theorem expand_symbol {code : UInt8} (h : code.toNat ≠ kEscape) (rest : Bytes) :
    expand symbol (code :: rest)
      = (symbol code.toNat).bind fun s => (expand symbol rest).map (s ++ ·) := by
  rcases rest with - | ⟨b, rest⟩
  · have hlast : expand symbol [code] = symbol code.toNat := if_neg h
    rw [hlast]
    rcases symbol code.toNat with - | s
    · rfl
    · show some s = some (s ++ [])
      rw [append_nil]
  · rw [expand, if_neg h]

/-- Codes that are read in full are read the same with more behind them. -/
theorem expand_append {codes more v : Bytes} (h : expand symbol codes = some v) :
    expand symbol (codes ++ more) = (expand symbol more).map (v ++ ·) := by
  induction codes using expand.induct generalizing v with
  | case1 =>
    cases h
    simp
  | case2 code hesc =>
    rw [expand, if_pos hesc] at h
    cases h
  | case3 code hesc =>
    rw [expand, if_neg hesc] at h
    rw [singleton_append, expand_symbol hesc, h]
    rfl
  | case4 code b rest hesc ih =>
    rw [expand_escape hesc] at h
    obtain ⟨w, hw, rfl⟩ := map_eq_some_iff.1 h
    rw [cons_append, cons_append, expand_escape hesc, ih hw, Option.map_map]
    rfl
  | case5 code b rest hesc ih =>
    rw [expand_symbol hesc] at h
    obtain ⟨s, hs, hrest⟩ := bind_eq_some_iff.1 h
    obtain ⟨w, hw, rfl⟩ := map_eq_some_iff.1 hrest
    rw [cons_append, expand_symbol hesc, hs, ih hw]
    simp [Function.comp_def]

end Expand

/-! ## The table -/

/-- What a code of the encoder stands for. -/
def Encoder.symbol (e : Encoder) (code : ℕ) : Option Bytes :=
  if code < e.symbolCount then some (leBytes (e.lengths code) (e.symbols code)) else none

/-- A parsed table says what the codes stand for. -/
structure SymbolTable.Says (t : SymbolTable) (symbol : ℕ → Option Bytes) : Prop where
  decodes : t.passthrough = false
  entry : ∀ code s, symbol code = some s → code < t.symbolCount ∧
    t.lengths[code]? = some s.length ∧
    ∃ word, t.symbols[code]? = some word ∧ word.length = 8 ∧ s = word.take s.length

theorem header_parts : ∀ count < 256,
    (kMagic ||| kEncoderSwitchBit ||| count) &&& 0xFF = count ∧
    (kMagic ||| kEncoderSwitchBit ||| count) &&& kMagic = kMagic ∧
    (kMagic ||| kEncoderSwitchBit ||| count) &&& kEncoderSwitchBit ≠ 0 ∧
    (kMagic ||| kEncoderSwitchBit ||| count) < 256 ^ 8 := by
  decide +kernel

theorem length_serializeBody (e : Encoder) :
    (serializeBody e).length = 8 + (e.symbolCount * 8 + e.symbolCount) := by
  rw [serializeBody, length_append, length_append, length_leBytes,
    length_flatMap_const (fun _ => length_leBytes 8 _), length_map, length_range]

section Serialize

variable (h : e.Sound)

include h

theorem length_serialize : (serialize e).length = kSymbolTableBytes := by
  have hcount := h.count_le
  have hbody := length_serializeBody e
  have hsize : kSymbolTableBytes = 2312 := rfl
  rw [serialize, length_append, length_replicate]
  omega

theorem serialize_parts :
    leNat (subspan (serialize e) 0 8) = kMagic ||| kEncoderSwitchBit ||| e.symbolCount ∧
    (∀ i < e.symbolCount, subspan (serialize e) (8 + i * 8) 8 = leBytes 8 (e.symbols i)) ∧
    ∀ i < e.symbolCount, (serialize e)[8 + e.symbolCount * 8 + i]?
      = some (UInt8.ofNat (e.lengths i)) := by
  have hcount := h.count_le
  obtain ⟨-, -, -, hlt⟩ := header_parts e.symbolCount (by omega)
  set head := leBytes 8 (kMagic ||| kEncoderSwitchBit ||| e.symbolCount) with hhead
  set words := (range e.symbolCount).flatMap fun i => leBytes 8 (e.symbols i) with hwords
  set lens := (range e.symbolCount).map fun i => ofNat (e.lengths i) with hlens
  have hheadlen : head.length = 8 := length_leBytes 8 _
  have hwordslen : words.length = e.symbolCount * 8 := by
    rw [length_flatMap_const (fun _ => length_leBytes 8 _), length_range]
  have hlenslen : lens.length = e.symbolCount := by rw [length_map, length_range]
  obtain ⟨pad, hbytes⟩ : ∃ pad, serialize e = head ++ (words ++ (lens ++ pad)) := by
    refine ⟨replicate (kSymbolTableBytes - (serializeBody e).length) 0, ?_⟩
    rw [serialize, serializeBody, append_assoc, append_assoc]
  rw [hbytes]
  refine ⟨?_, fun i hi => ?_, fun i hi => ?_⟩
  · rw [subspan, drop_zero, take_append_of_le_length hheadlen.ge,
      take_of_length_le hheadlen.le, leNat_leBytes, mod_eq_of_lt hlt]
  · rw [subspan_append_of_le (by omega), hheadlen, Nat.add_sub_cancel_left,
      ← subspan_flatMap (fun _ => length_leBytes 8 _) (getElem?_range hi), subspan, subspan,
      drop_append_of_le_length (by omega),
      take_append_of_le_length (by rw [length_drop]; omega)]
  · rw [getElem?_append_right (by omega), hheadlen, getElem?_append_right (by omega),
      hwordslen, getElem?_append_left (by omega), getElem?_map]
    have hidx : 8 + e.symbolCount * 8 + i - 8 - e.symbolCount * 8 = i := by omega
    rw [hidx, getElem?_range hi]
    rfl

/-- **The serialized table is accepted**, and says what the encoder's
codes stand for. -/
theorem parseSymbolTable_serialize :
    ∃ t, parseSymbolTable (serialize e) = .ok t ∧ t.Says e.symbol := by
  have hcount := h.count_le
  obtain ⟨hbyte, hmagic, hswitch, -⟩ := header_parts e.symbolCount (by omega)
  obtain ⟨hheader, hwords, hlens⟩ := serialize_parts h
  have hlengths : (range e.symbolCount).mapM (fun i =>
      symbolLength (serialize e) (8 + e.symbolCount * kMaxSymbolLength + i))
        = .ok ((range e.symbolCount).map e.lengths) := by
    refine mapM_ok fun i hi => ?_
    have hi' := mem_range.1 hi
    have hpos : 1 ≤ e.lengths i := (h.fits i hi').pos
    have hle : e.lengths i ≤ 8 := (h.fits i hi').le
    have hread : u8 (serialize e) (8 + e.symbolCount * 8 + i) = .ok (e.lengths i) := by
      rw [u8, hlens i hi']
      show Except.ok (ofNat (e.lengths i)).toNat = _
      rw [toNat_ofNat', mod_eq_of_lt (by omega)]
    rw [symbolLength, kMaxSymbolLength, hread, ok_bind, if_neg (by omega)]
    rfl
  have hparse : parseSymbolTable (serialize e) = .ok
      { passthrough := false
        symbolCount := e.symbolCount
        symbols := (range e.symbolCount).map fun i => subspan (serialize e) (8 + i * 8) 8
        lengths := (range e.symbolCount).map e.lengths } := by
    rw [parseSymbolTable, if_neg (not_not.2 (length_serialize h))]
    dsimp only
    rw [hheader, hbyte, if_neg (not_not.2 hmagic), hlengths, decide_eq_false hswitch]
    rfl
  refine ⟨_, hparse, rfl, ?_⟩
  intro code s hs
  rw [Encoder.symbol] at hs
  split at hs
  · rename_i hlt
    cases hs
    refine ⟨hlt, ?_, subspan (serialize e) (8 + code * 8) 8, ?_, ?_, ?_⟩
    · rw [getElem?_map, getElem?_range hlt, length_leBytes]
      rfl
    · rw [getElem?_map, getElem?_range hlt]
      rfl
    · rw [hwords code hlt, length_leBytes]
    · -- the first bytes of the word are the symbol's
      have hle := (h.fits code hlt).le
      rw [hwords code hlt, length_leBytes, take_leBytes hle]
  · cases hs

end Serialize

/-! ## Decoding -/

section Decode

variable {t : SymbolTable} {symbol : ℕ → Option Bytes} {codes v : Bytes}

/-- What decoding keeps: the output and the reading of the codes to come
are the value. -/
structure Expander.Reads (symbol : ℕ → Option Bytes) (codes v : Bytes) (c : Expander n) :
    Prop where
  i_le : c.i ≤ codes.length
  out_le : c.out ≤ 8 * c.i
  value : ∃ rest, expand symbol (codes.drop c.i) = some rest ∧ c.buf.elems.take c.out ++ rest = v

/-- **A code.** -/
theorem Expander.Reads.expandCode {c : Expander n} (h : c.Reads symbol codes v)
    (ht : t.Says symbol) (hroom : maxDecodedSize codes.length ≤ n) (hlt : c.i < codes.length) :
    ∃ c', expandCode t codes c = .ok c' ∧ c'.Reads symbol codes v ∧
      codes.length - c'.i < codes.length - c.i := by
  have hout := h.out_le
  obtain ⟨rest, hrest, hv⟩ := h.value
  have hsize : maxDecodedSize codes.length = codes.length * 8 + 8 := rfl
  have hdrop := drop_eq_getElem_cons hlt
  rw [hdrop] at hrest
  rw [Fsst.expandCode, u8_eq hlt, ok_bind]
  by_cases hesc : codes[c.i].toNat = kEscape
  · -- an escape, so there is a byte behind it
    rw [if_pos hesc]
    rcases hnext : codes.drop (c.i + 1) with - | ⟨b, more⟩
    · rw [hnext, expand, if_pos hesc] at hrest
      cases hrest
    have hlen := congrArg List.length hnext
    rw [length_drop, length_cons] at hlen
    have hmore : codes.drop (c.i + 2) = more := by rw [← tail_drop, hnext, tail_cons]
    rw [hnext, expand_escape hesc] at hrest
    obtain ⟨w, hw, rfl⟩ := map_eq_some_iff.1 hrest
    have hspan : subspan codes (c.i + 1) 1 = [b] := by rw [subspan, hnext]; rfl
    obtain ⟨b', hstore, htake⟩ := Buffer.take_store (b := c.buf) (l := [b]) (k := 1)
      (show c.out + 1 ≤ n by omega) (le_refl 1)
    have hload : c.buf.load codes c.out (c.i + 1) 1 = some b' := by
      rw [Buffer.load, if_pos ⟨by omega, by omega⟩, hspan, hstore]
    refine ⟨⟨c.i + 2, c.out + 1, b'⟩, ?_, ⟨?_, ?_, w, ?_, ?_⟩, ?_⟩
    · rw [if_neg (by omega), hload]
      rfl
    · show c.i + 2 ≤ codes.length
      omega
    · show c.out + 1 ≤ 8 * (c.i + 2)
      omega
    · rw [hmore, hw]
    · rw [htake, append_assoc]
      exact hv
    · show codes.length - (c.i + 2) < codes.length - c.i
      omega
  · rw [if_neg hesc]
    rw [expand_symbol hesc] at hrest
    obtain ⟨s, hs, hrest⟩ := bind_eq_some_iff.1 hrest
    obtain ⟨w, hw, rfl⟩ := map_eq_some_iff.1 hrest
    obtain ⟨hcount, hlength, word, hword, hlen, htaken⟩ := ht.entry _ s hs
    have hle : s.length ≤ 8 := by rw [htaken, length_take]; omega
    obtain ⟨b', hstore, htake⟩ := Buffer.take_store (b := c.buf) (l := word) (k := s.length)
      (show c.out + word.length ≤ n by omega) (by omega)
    refine ⟨⟨c.i + 1, c.out + s.length, b'⟩, ?_, ⟨hlt, ?_, w, hw, ?_⟩, ?_⟩
    · rw [if_neg (by omega), hword, hlength]
      show (do return (⟨_, _, ← access (c.buf.store c.out word)⟩ : Expander n)) = _
      rw [hstore]
      rfl
    · show c.out + s.length ≤ 8 * (c.i + 1)
      omega
    · rw [htake, ← htaken, append_assoc]
      exact hv
    · show codes.length - (c.i + 1) < codes.length - c.i
      omega

/-- **Decoding is the plain reading of the codes.** -/
theorem decode_of_expand (ht : t.Says symbol) (hv : expand symbol codes = some v)
    (hroom : maxDecodedSize codes.length ≤ n) (out : Buffer UInt8 n) :
    ∃ out', decode t codes out = .ok (v.length, out') ∧ out'.elems.take v.length = v := by
  have hstart : Expander.Reads symbol codes v ⟨0, 0, out⟩ := ⟨zero_le _, zero_le _, v, hv, rfl⟩
  obtain ⟨c, hrun, hreads, hend⟩ := repeatWhile_inv Stop.unfinished
    (fun c => codes.length - c.i)
    (fun c hc hlt => hc.expandCode ht hroom (of_decide_eq_true hlt)) hstart
    (show codes.length - 0 < codes.length + 1 by omega)
  have hi : codes.length ≤ c.i := Nat.le_of_not_lt (of_decide_eq_false hend)
  have hout := hreads.out_le
  have hile := hreads.i_le
  obtain ⟨rest, hrest, hval⟩ := hreads.value
  have hsize : maxDecodedSize codes.length = codes.length * 8 + 8 := rfl
  rw [drop_of_length_le hi] at hrest
  cases hrest
  rw [append_nil] at hval
  have hlen : c.out = v.length := by rw [← hval, Buffer.length_take (by omega)]
  refine ⟨c.buf, ?_, by rw [← hlen, hval]⟩
  rw [decode, if_neg (by omega), decodeUnchecked, if_neg (by rw [ht.decodes]; decide), hrun,
    ← hlen]
  rfl

end Decode

/-! ## Lookups -/

section Lookup

variable {p : Bytes} {code length : ℕ}

theorem load_mod {l : ℕ} (hl : l ≤ 8) (hp : l ≤ p.length) :
    load p % 256 ^ l = leNat (p.take l) := by
  have htake : (p.take 8).take l = p.take l := by rw [take_take, min_eq_left hl]
  rw [load, ← leNat_take _ (by rw [length_take]; omega), htake]

/-- A code that stands for the next bytes. -/
structure Encoder.Codes (e : Encoder) (p : Bytes) (code length : ℕ) : Prop where
  spells : e.Spells code (leNat (p.take length)) length
  pos : 1 ≤ length
  le : length ≤ p.length
  lt : code < 255

theorem Encoder.Codes.of_spells (h : e.Sound) (hs : e.Spells code (load p % 256 ^ length) length)
    (hp : length ≤ p.length) : e.Codes p code length := by
  have hcount := h.count_le
  have hlt := hs.lt
  have hfit := h.fits code hlt
  rw [hs.len] at hfit
  rw [load_mod hfit.le hp] at hs
  exact ⟨hs, hfit.pos, hp, by omega⟩

theorem Encoder.Codes.symbol (h : e.Codes p code length) :
    e.symbol code = some (p.take length) := by
  have hlen : (p.take length).length = length := by rw [length_take]; exact min_eq_left h.le
  have hbytes := leBytes_leNat (p.take length)
  rw [hlen] at hbytes
  rw [Encoder.symbol, if_pos h.spells.lt, h.spells.symbol, h.spells.len, hbytes]

theorem Encoder.Codes.expand (h : e.Codes p code length) :
    expand e.symbol [UInt8.ofNat code] = some (p.take length) := by
  have hlt := h.lt
  have hval : (ofNat code).toNat = code := by rw [toNat_ofNat']; omega
  rw [expand_symbol (by rw [hval]; exact Nat.ne_of_lt hlt), hval, h.symbol]
  show some (p.take length ++ []) = _
  rw [append_nil]

variable (h : e.Sound)

include h

theorem codes_byte (hp : 1 ≤ p.length) {b : Fin 256} (hb : (b : ℕ) = load p % 256)
    (hone : e.byteCodes b ≠ kNone) : e.Codes p (e.byteCodes b) 1 := by
  refine .of_spells h ?_ hp
  rw [pow_one, ← hb]
  exact h.byte b hone

theorem codes_short (hp : 2 ≤ p.length) (htwo : e.shortCodes (low16 (load p)) ≠ kNone) :
    e.Codes p (e.shortCodes (low16 (load p))) 2 := by
  refine .of_spells h ?_ hp
  have hval : load p % 256 ^ 2 = (low16 (load p) : ℕ) := (low16_val _).symm
  rw [hval]
  exact h.short _ htwo

theorem codes_long {i : Fin 1024} (hpos : (e.longCodes i).length ≠ 0)
    (hp : (e.longCodes i).length ≤ p.length)
    (hval : load p % 256 ^ (e.longCodes i).length = (e.longCodes i).value) :
    e.Codes p (e.longCodes i).code (e.longCodes i).length := by
  refine .of_spells h ?_ hp
  rw [hval]
  exact h.long i hpos

theorem long_le {i : Fin 1024} (hpos : (e.longCodes i).length ≠ 0) :
    (e.longCodes i).length ≤ 8 := by
  have hspells := h.long i hpos
  have hfit := h.fits _ hspells.lt
  rw [hspells.len] at hfit
  exact hfit.le

/-- **`find` gives a code of the next bytes**, or none. -/
theorem find_codes (hp : 1 ≤ p.length) (hcode : (find e p).1 ≠ kNone) :
    e.Codes p (find e p).1 (find e p).2 := by
  unfold find at hcode ⊢
  dsimp only at hcode ⊢
  split
  · rename_i hlong
    obtain ⟨-, hpos, hle, hval⟩ := hlong
    rw [and_mask (long_le h hpos)] at hval
    exact codes_long h hpos hle hval
  rename_i hlong
  rw [if_neg hlong] at hcode
  split
  · rename_i hshort
    exact codes_short h hshort.1 hshort.2
  · rename_i hshort
    rw [if_neg hshort] at hcode
    exact codes_byte h hp (low8_val _) hcode

theorem codes_starts {i : Fin 1024} (hs : (e.longCodes i).starts (load p) = true)
    (hp : (e.longCodes i).length ≤ p.length) :
    e.Codes p (e.longCodes i).code (e.longCodes i).length := by
  obtain ⟨hpos, hzero⟩ := of_decide_eq_true hs
  have hle := long_le h hpos
  have hspells := h.long i hpos
  have hfit := h.fits _ hspells.lt
  rw [hspells.len, hspells.symbol] at hfit
  refine codes_long h hpos hp ?_
  generalize hslot : e.longCodes i = s at hpos hzero hp hle hfit ⊢
  have hpow : 256 ^ s.length = 2 ^ (8 * s.length) := by rw [Nat.pow_mul]
  have hsplit : 2 ^ 64 = 2 ^ (8 * s.length) * 2 ^ (64 - 8 * s.length) := by
    rw [← pow_add]
    congr 1
    omega
  have hlt : s.value < 2 ^ (8 * s.length) := hpow ▸ hfit.lt
  -- the shift keeps the low bytes of the difference only
  have hxor : (load p ^^^ s.value) % 2 ^ (8 * s.length) = 0 := by
    rw [u64, shiftLeft_eq, hsplit, mul_mod_mul_right] at hzero
    exact (Nat.mul_eq_zero.1 hzero).resolve_right (Nat.pow_pos Nat.two_pos).ne'
  rw [xor_mod_two_pow, mod_eq_of_lt hlt] at hxor
  rw [hpow]
  exact eq_of_xor_eq_zero hxor

omit h in
/-- An entry of `short_or_byte` that the next bytes may be written by: the
code of a symbol they start with, or an escape. -/
def Encoder.Entry (e : Encoder) (p : Bytes) (entry : ℕ) : Prop :=
  ∃ code length, entry = (length <<< 8) ||| code ∧
    (e.Codes p code length ∨ code = kEscape ∧ length = 1 ∧ 1 ≤ p.length)

theorem entry_byte (hp : 1 ≤ p.length) {b : Fin 256} (hb : (b : ℕ) = load p % 256) :
    e.Entry p ((1 <<< 8) ||| if e.byteCodes b ≠ kNone then e.byteCodes b else kEscape) := by
  refine ⟨_, 1, rfl, ?_⟩
  split
  · exact Or.inl (codes_byte h hp hb ‹_›)
  · exact Or.inr ⟨rfl, rfl, hp⟩

theorem entry_short (hp : 2 ≤ p.length) : e.Entry p (shortOrByteEntry e (low16 (load p))) := by
  unfold shortOrByteEntry
  dsimp only
  split
  · exact ⟨_, 2, rfl, .inl (codes_short h hp ‹_›)⟩
  have hbyte := entry_byte h (b := low8 (low16 (load p) : ℕ)) (show 1 ≤ p.length by omega)
    (by rw [low8_val, low16_val]; omega)
  split
  · rw [if_pos ‹_›] at hbyte
    exact hbyte
  · rw [if_neg ‹_›] at hbyte
    exact hbyte

end Lookup

/-! ## Compression -/

section Compress

variable {v : Bytes} {c : Packer n}

/-- What compression keeps: the codes written are a reading of the bytes
passed, at most two for each. -/
structure Packer.Reads (e : Encoder) (v : Bytes) (c : Packer n) : Prop where
  pos_le : c.pos ≤ v.length
  out_le : c.out ≤ 2 * c.pos
  codes : expand e.symbol (c.buf.elems.take c.out) = some (v.take c.pos)

/-- A round that goes on in the value. -/
def Packer.Advances (e : Encoder) (v : Bytes) (c : Packer n) (r : Except Stop (Packer n)) : Prop :=
  ∃ c', r = .ok c' ∧ c'.Reads e v ∧ v.length - c'.pos < v.length - c.pos

namespace Packer.Reads

variable (h : c.Reads e v) (hroom : 2 * v.length ≤ n)

include h hroom

/-- **Codes more**: bytes of which the first `k` are codes of the next
bytes of the value. -/
theorem store {l : Bytes} {k length : ℕ} (hl : l.length ≤ 2) (hk : k ≤ l.length)
    (hpos : 1 ≤ length) (hle : length ≤ (v.drop c.pos).length)
    (hcodes : expand e.symbol (l.take k) = some ((v.drop c.pos).take length)) :
    Packer.Advances e v c
      (return ⟨c.pos + length, c.out + k, ← access (c.buf.store c.out l)⟩) := by
  have hout := h.out_le
  rw [length_drop] at hle
  obtain ⟨b', hstore, htake⟩ := Buffer.take_store
    (show c.out + l.length ≤ n by omega) hk
  refine ⟨⟨c.pos + length, c.out + k, b'⟩, ?_, ⟨?_, ?_, ?_⟩, ?_⟩
  · rw [hstore]
    rfl
  · show c.pos + length ≤ v.length
    omega
  · show c.out + k ≤ 2 * (c.pos + length)
    omega
  · rw [htake, expand_append h.codes, hcodes, take_add]
    rfl
  · show v.length - (c.pos + length) < v.length - c.pos
    omega

theorem emitCode {code length : ℕ} (hcode : e.Codes (v.drop c.pos) code length) :
    Packer.Advances e v c (emitCode code length c) := by
  refine h.store hroom (l := [ofNat code]) (k := 1) (le_succ 1) (le_refl 1)
    hcode.pos hcode.le ?_
  exact hcode.expand

theorem escape {b : UInt8} (hb : v[c.pos]? = some b) :
    Packer.Advances e v c
      (return ⟨c.pos + 1, c.out + 2, ← access (c.buf.store c.out [UInt8.ofNat kEscape, b])⟩) := by
  obtain ⟨hlt, rfl⟩ := List.getElem?_eq_some_iff.1 hb
  refine h.store hroom (le_refl 2) (le_refl 2) (le_refl 1)
    (by rw [length_drop]; omega) ?_
  rw [drop_eq_getElem_cons hlt]
  rfl

theorem emitEntry {entry : ℕ} (hentry : e.Entry (v.drop c.pos) entry) :
    Packer.Advances e v c (emitEntry entry (load (v.drop c.pos)) c) := by
  obtain ⟨code, length, rfl, hcase⟩ := hentry
  have hlt : code < 2 ^ 8 := by
    rcases hcase with hcode | ⟨rfl, -, -⟩
    · have := hcode.lt
      omega
    · decide
  have hsum : length <<< 8 ||| code = length * 2 ^ 8 + code := by
    rw [← shiftLeft_add_eq_or_of_lt hlt, shiftLeft_eq]
  have hcode' : (length <<< 8 ||| code) &&& 0xFF = code := by
    have hand := and_two_pow_sub_one_eq_mod (length * 2 ^ 8 + code) 8
    rw [hsum, hand]
    omega
  have hlength : (length <<< 8 ||| code) >>> 8 = length := by
    rw [hsum, shiftRight_eq_div_pow]
    omega
  unfold Fsst.emitEntry
  rw [hcode', hlength]
  dsimp only
  rcases hcase with hcode | ⟨rfl, rfl, hp⟩
  · rw [if_neg (show code ≠ kEscape from Nat.ne_of_lt hcode.lt)]
    exact h.store hroom (le_refl 2) (le_succ 1) hcode.pos hcode.le hcode.expand
  rw [if_pos rfl]
  refine h.escape hroom ?_
  -- the low byte of the word is the next byte of the value
  have hlt' : c.pos < v.length := by rw [length_drop] at hp; omega
  have hbyte := load_mod (p := v.drop c.pos) (Nat.le_add_left 1 7) hp
  have hfirst : (v.drop c.pos).take 1 = [v[c.pos]] := by rw [drop_eq_getElem_cons hlt']; rfl
  have hand := and_two_pow_sub_one_eq_mod (load (v.drop c.pos)) 8
  have hone : leNat [v[c.pos]] = v[c.pos].toNat := by rw [leNat_cons]; rfl
  rw [hfirst, hone] at hbyte
  rw [getElem?_eq_getElem hlt', hand]
  congr 1
  refine UInt8.toNat_inj.1 ?_
  rw [toNat_ofNat', ← hbyte]
  omega

theorem packWord (he : e.Sound) (hleft : c.pos + 8 ≤ v.length) :
    Packer.Advances e v c (packWord e (shortOrByteEntry e) v c) := by
  have hp : 8 ≤ (v.drop c.pos).length := by rw [length_drop]; omega
  unfold Fsst.packWord
  dsimp only
  split
  · rename_i hs
    have hle := long_le he (of_decide_eq_true hs).1
    exact h.emitCode hroom (codes_starts he hs (by omega))
  · exact h.emitEntry hroom (entry_short he (by omega))

theorem packTail (he : e.Sound) (hleft : c.pos < v.length) :
    Packer.Advances e v c (packTail e (shortOrByteEntry e) v c) := by
  have hlen := length_drop (i := c.pos) (l := v)
  unfold Fsst.packTail
  dsimp only
  split
  · rename_i hs
    exact h.emitCode hroom (codes_starts he hs.1 (by omega))
  · split
    · exact h.emitEntry hroom (entry_short he (by omega))
    · exact h.emitEntry hroom (entry_byte he (by omega) (low8_val _))

theorem packPlain (he : e.Sound) (hleft : c.pos < v.length) :
    Packer.Advances e v c (packPlain e v c) := by
  have hlen := length_drop (i := c.pos) (l := v)
  unfold Fsst.packPlain
  split
  rename_i code length hfind
  split
  · rw [getElem?_eq_getElem hleft]
    exact h.escape hroom (getElem?_eq_getElem hleft)
  · have hcodes := find_codes he (p := v.drop c.pos) (by omega) (by rw [hfind]; assumption)
    rw [hfind] at hcodes
    exact h.emitCode hroom hcodes

end Packer.Reads

/-- **Compression writes a reading of the value.** -/
theorem compress_reads (he : e.Ready) (v out : Bytes) :
    ∃ codes, compress e v out = .ok (out ++ codes) ∧ codes.length ≤ maxCompressedSize v.length ∧
      expand e.symbol codes = some v := by
  have hroom : 2 * v.length ≤ maxCompressedSize v.length := le_refl _
  set fresh := Buffer.zeros (maxCompressedSize v.length) with hfresh
  have hstart : Packer.Reads e v ⟨0, 0, fresh⟩ := ⟨zero_le _, zero_le _, rfl⟩
  obtain ⟨c, hrun, hreads, hend⟩ : ∃ c : Packer _,
      compressUnchecked e v fresh = .ok (c.out, c.buf) ∧ c.Reads e v ∧
        decide (c.pos < v.length) = false := by
    rw [compressUnchecked]
    rcases hsob : e.shortOrByte with - | s
    · obtain ⟨c, hrun, hreads, hend⟩ := repeatWhile_inv Stop.unfinished
        (fun c => v.length - c.pos)
        (fun c hc hlt => hc.packPlain hroom he.sound (of_decide_eq_true hlt)) hstart
        (show v.length - 0 < v.length + 1 by omega)
      refine ⟨c, ?_, hreads, hend⟩
      rw [hrun]
      rfl
    cases he.shortOrByte s hsob
    obtain ⟨c₁, hrun₁, hreads₁, -⟩ := repeatWhile_inv Stop.unfinished
      (fun c => v.length - c.pos)
      (fun c hc hlt => hc.packWord hroom he.sound (of_decide_eq_true hlt)) hstart
      (show v.length - 0 < v.length + 1 by omega)
    obtain ⟨c, hrun, hreads, hend⟩ := repeatWhile_inv Stop.unfinished
      (fun c => v.length - c.pos)
      (fun c hc hlt => hc.packTail hroom he.sound (of_decide_eq_true hlt)) hreads₁
      (show v.length - c₁.pos < v.length + 1 by omega)
    refine ⟨c, ?_, hreads, hend⟩
    dsimp only
    rw [hrun₁, ok_bind, hrun]
    rfl
  have hpos := hreads.pos_le
  have hout := hreads.out_le
  have hlast : v.length ≤ c.pos := Nat.le_of_not_lt (of_decide_eq_false hend)
  refine ⟨c.buf.elems.take c.out, ?_, ?_, ?_⟩
  · rw [compress, hrun]
    rfl
  · rw [length_take]
    omega
  · rw [hreads.codes, take_of_length_le hlast]

end Compress

/-! ## The round trip -/

/-- An encoder there can be: a trained one, or a table that is filled
symbol by symbol after a `reset`. Only training gives a `short_or_byte`,
and `reset` leaves it alone, so the second kind starts without one. -/
inductive Built (σ : ComparisonSort) : Encoder → Prop
  | trained {k : ℕ} {values : List Bytes} {e : Encoder} :
      train σ k values = .ok (some e) → Built σ e
  | added {e₀ e : Encoder} {symbols : List Symbol} : e₀.shortOrByte = none →
      (∀ s ∈ symbols, s.Fits) → symbols.length ≤ 255 → addAll (reset e₀) symbols = .ok e →
      Built σ e

theorem Built.ready {σ : ComparisonSort} (h : Built σ e) : e.Ready := by
  cases h with
  | trained h => exact ready_trained h
  | @added e₀ _ symbols hnone hfit hlen hadd =>
    have hroom : (reset e₀).symbolCount + symbols.length ≤ 255 := by
      rw [show (reset e₀).symbolCount = 0 from rfl]
      omega
    obtain ⟨e', hadd', hsound, hsob⟩ := (sound_reset e₀).addAll hfit hroom
    cases hadd.symm.trans hadd'
    refine ⟨hsound, fun s hs => ?_⟩
    rw [hsob.trans hnone] at hs
    cases hs

/-- **The round trip.** The serialized table is accepted; compression of
any value succeeds, with at most two bytes for one; and decoding gives the
value back, in any output of the size the decoder asks for. -/
theorem decode_compress {σ : ComparisonSort} (h : Built σ e) (v out : Bytes) :
    ∃ t codes, parseSymbolTable (serialize e) = .ok t ∧
      compress e v out = .ok (out ++ codes) ∧ codes.length ≤ 2 * v.length ∧
      ∀ (n : ℕ) (buf : Buffer UInt8 n), maxDecodedSize codes.length ≤ n →
        ∃ buf', decode t codes buf = .ok (v.length, buf') ∧ buf'.elems.take v.length = v := by
  have hready := h.ready
  obtain ⟨t, hparse, hsays⟩ := parseSymbolTable_serialize hready.sound
  obtain ⟨codes, hcompress, hsize, hreads⟩ := compress_reads hready v out
  exact ⟨t, codes, hparse, hcompress, hsize, fun n buf hroom =>
    decode_of_expand hsays hreads hroom buf⟩

/-- A table of `"a"`, `"ab"` and `"abc"`, on a value that needs all three
and an escape. -/
theorem decode_compress_abc : ∃ e t codes,
    Built .insertion e ∧ parseSymbolTable (serialize e) = .ok t ∧
      compress e [97, 98, 99, 97, 98, 97, 100] [] = .ok ([] ++ codes) ∧ codes.length ≤ 14 ∧
      ∀ (n : ℕ) (buf : Buffer UInt8 n), maxDecodedSize codes.length ≤ n →
        ∃ buf', decode t codes buf = .ok (7, buf') ∧
          buf'.elems.take 7 = [97, 98, 99, 97, 98, 97, 100] := by
  have hfit : ∀ s ∈ [Symbol.mk 0x61 1, ⟨0x6261, 2⟩, ⟨0x636261, 3⟩], s.Fits := by
    intro s hs
    simp only [mem_cons, not_mem_nil, or_false] at hs
    rcases hs with rfl | rfl | rfl
    all_goals exact ⟨by decide, by decide, by decide⟩
  obtain ⟨e, hadd, -, -⟩ := (sound_reset {}).addAll hfit (by decide)
  have hbuilt : Built .insertion e := .added rfl hfit (by decide) hadd
  obtain ⟨t, codes, h⟩ := decode_compress hbuilt [97, 98, 99, 97, 98, 97, 100] []
  exact ⟨e, t, codes, hbuilt, h⟩

end Nanom.Codec.Fsst
