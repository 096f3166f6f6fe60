import Nanom.Codec.Copy

/-!
# LZ4 blocks

`lz4_block_decompress` gives what the plain decoder gives
(`lz4BlockDecompress_refines`). The lengths of a sequence are added up in
a `size_t`; an input shorter than 2⁵⁶ bytes cannot bring one to wrap,
which is what `extLen_refines` rests on.
-/

namespace Nanom.Codec

open List

open Loop (Round)

variable {n : ℕ} {input : Bytes} {token : ℕ} {c : Cursor n}

/-! ## Lengths -/

/-- A length that has been read, and where the input goes on. -/
structure ReadLength (input : Bytes) (ip : ℕ) (a : ℕ × ℕ) (p : ℕ × Bytes) : Prop where
  eq : p = (a.1, input.drop a.2)
  small : a.1 + 20 < 2 ^ 64
  ip_le : ip ≤ a.2
  le_length : a.2 ≤ input.length

theorem extLenFrom_refines (len : ℕ) {ip : ℕ} {rest : Bytes} (hrest : rest = input.drop ip)
    (hip : ip ≤ input.length) (hsmall : len + 255 * rest.length + 20 < 2 ^ 64) :
    Refines (fun _ => True) (ReadLength input ip) (extLenFrom len ip rest)
      (Lz4.extended len rest) := by
  induction rest generalizing len ip with
  | nil => exact .error trivial
  | cons b rest ih =>
    have hb : b.toNat < 256 := b.toNat_lt
    have hlt : ip < input.length := by
      refine Nat.lt_of_not_le fun h => ?_
      rw [drop_of_length_le h] at hrest
      cases hrest
    have htail : rest = input.drop (ip + 1) := by
      rw [drop_eq_getElem_cons hlt] at hrest
      exact (cons.inj hrest).2
    rw [length_cons] at hsmall
    -- the sum stays far from the end of a `size_t`
    have hfits : ¬ 2 ^ 64 - 1 - b.toNat < len := by omega
    have hbyte : b = 255 ↔ b.toNat = 255 := by rw [← UInt8.toNat_inj]; rfl
    rw [extLenFrom, Lz4.extended, if_neg hfits]
    by_cases hmore : b.toNat = 255
    · rw [if_pos (hbyte.mpr hmore), hmore]
      refine (ih (len + 255) htail hlt (by omega)).mono fun a p h => ?_
      exact ⟨h.eq, h.small, by have := h.ip_le; omega, h.le_length⟩
    · rw [if_pos hmore, if_neg (mt hbyte.mp hmore)]
      exact .ok ⟨by rw [htail], by dsimp only; omega, Nat.le_succ ip, hlt⟩

/-- **A length is what the plain decoder reads**, in an input that is
short enough. -/
theorem extLen_refines (what : String) (nibble : ℕ) {ip : ℕ} (hnibble : nibble ≤ 15)
    (hip : ip ≤ input.length) (hlen : input.length < 2 ^ 56) :
    Refines Stop.Reported (ReadLength input ip) (extLen what input nibble ip)
      (Lz4.length nibble (input.drop ip)) := by
  rw [extLen, Lz4.length]
  by_cases hext : nibble = 15
  · rw [hext]
    have h := extLenFrom_refines 15 rfl hip (by rw [length_drop]; omega)
    generalize extLenFrom 15 ip (input.drop ip) = r at h
    generalize Lz4.extended 15 (input.drop ip) = q at h
    cases h with
    | ok hap => exact .ok hap
    | error _ => exact reported_fail _ _
  · rw [if_pos hext, if_pos (by omega)]
    exact .ok ⟨rfl, by dsimp only; omega, le_refl ip, hip⟩

/-! ## Sequences -/

theorem shiftRight_four (token : ℕ) : token >>> 4 = token / 16 := Nat.shiftRight_eq_div_pow token 4

theorem and_fifteen (token : ℕ) : token &&& 15 = token % 16 :=
  Nat.and_two_pow_sub_one_eq_mod token 4

theorem lz4Load_loads (b : Buffer UInt8 n) {op ip lit : ℕ} (hsrc : ip + lit ≤ input.length)
    (hroom : op + lit ≤ n) :
    ∃ b', lz4Load input op ip lit b = .ok b' ∧ Loads b b' op (input.drop ip) lit := by
  rw [lz4Load]
  split
  · obtain ⟨b', hb', hloads⟩ := load_loads b hsrc hroom
    exact ⟨b', by rw [hb']; rfl, hloads⟩
  · have hzero : lit = 0 := not_not.mp ‹_›
    subst hzero
    exact ⟨b, rfl, Loads.refl b op _⟩

/-- The literals of a sequence are the plain ones: on the fast path
sixteen bytes are loaded, and the next store is over what is too many. -/
theorem lz4Literals_refines (htoken : token < 256) (hip : c.ip ≤ input.length) (hop : c.op ≤ n)
    (hlen : input.length < 2 ^ 56) :
    Refines Stop.Reported (fun c' t => Sim input c' t ∧ c.ip ≤ c'.ip) (lz4Literals input token c)
      (Lz4.literals n token ⟨input.drop c.ip, c.buf.elems.take c.op⟩) := by
  rw [lz4Literals, Lz4.literals, shiftRight_four]
  by_cases hfast : token / 16 < 15 ∧ 16 ≤ input.length - c.ip ∧ 16 ≤ n - c.op
  · have hsrc : c.ip + 16 ≤ input.length := by omega
    have hroom : c.op + 16 ≤ n := by omega
    obtain ⟨b', hb', hloads⟩ := load_loads c.buf hsrc hroom
    have hliteral := literal_of_loads (token / 16) hloads (by omega) (by omega) (by omega)
    have hlength : Lz4.length (token / 16) (input.drop c.ip)
        = some (token / 16, input.drop c.ip) := if_pos hfast.1
    rw [if_pos hfast, hb', hlength]
    change Refines _ _ _ (Plain.literal n (token / 16) ⟨input.drop c.ip, c.buf.elems.take c.op⟩)
    rw [hliteral]
    exact .ok ⟨⟨by dsimp only; omega, by dsimp only; omega, rfl, rfl⟩, Nat.le_add_right _ _⟩
  · rw [if_neg hfast]
    refine (extLen_refines _ (token / 16) (by omega) hip hlen).bind ?_
    rintro ⟨lit, ip⟩ _ ⟨rfl, -, hle, hend⟩
    refine (literal_refines _ _ hend hop fun hsrc hroom => ?_).mono fun c' t ⟨hsim, hip'⟩ => ?_
    · exact lz4Load_loads c.buf hsrc hroom
    · exact ⟨hsim, by omega⟩

theorem lz4Match_refines (token : ℕ) (hip : c.ip ≤ input.length) (hop : c.op ≤ n)
    (hlen : input.length < 2 ^ 56) :
    Refines Stop.Reported (fun c' t => Sim input c' t ∧ c.ip < c'.ip) (lz4Match input token c)
      (Lz4.backReference n token ⟨input.drop c.ip, c.buf.elems.take c.op⟩) := by
  rw [lz4Match, Lz4.backReference, and_fifteen]
  by_cases hshort : input.length - c.ip < 2
  · rw [if_pos hshort, takeLe_drop_of_lt (by omega) hip]
    exact reported_fail _ _
  have htwo : c.ip + 2 ≤ input.length := by omega
  rw [if_neg hshort, takeLe_drop htwo, orBytes_eq htwo, ok_bind]
  generalize leNat (subspan input c.ip 2) = offset
  change Refines _ _ _ (Lz4.length (token % 16) (input.drop (c.ip + 2)) >>= fun p =>
    Plain.copy n offset (p.1 + 4) ⟨p.2, c.buf.elems.take c.op⟩)
  have hread := extLen_refines "lz4: truncated match length" (token % 16) (by omega) htwo hlen
  by_cases hoff : offset = 0 ∨ c.op < offset
  · -- the offset is checked before the length is read, and refused either way
    have hnone : ∀ p : ℕ × Bytes,
        Plain.copy n offset (p.1 + 4) ⟨p.2, c.buf.elems.take c.op⟩ = none := fun p => by
      rw [Plain.copy, Buffer.length_take hop, if_neg (by omega)]
    rw [if_pos hoff, Option.bind_eq_bind, Option.bind_congr fun p _ => hnone p,
      Option.bind_fun_none]
    exact reported_fail _ _
  · rw [if_neg hoff]
    refine hread.bind ?_
    rintro ⟨mlen, ip⟩ _ ⟨rfl, hsmall, hle, hend⟩
    dsimp only at hsmall hle hend ⊢
    rw [Plain.copy, Buffer.length_take hop, if_pos (by omega), u64_of_lt (by omega)]
    refine (copyBack_refines _ c.buf (by omega) (by omega) hop (by omega)).bind ?_
    rintro b out ⟨hroom, rfl⟩
    exact .ok ⟨⟨hend, hroom, rfl, rfl⟩, by dsimp only; omega⟩

theorem lz4Head_refines {t : Plain} (h : Sim input c t) (hlen : input.length < 2 ^ 56) :
    Refines Stop.Reported (fun a p => a.1 = p.1 ∧ Sim input a.2 p.2 ∧ c.ip < a.2.ip)
      (lz4Head input c) (Lz4.head n t) := by
  obtain ⟨rest, produced⟩ := t
  obtain ⟨hip, hop, hrest, hproduced⟩ := h
  dsimp only at hrest hproduced
  subst hproduced
  rw [lz4Head]
  rcases lt_or_ge c.ip input.length with hlt | hge
  · have hcons : rest = input[c.ip] :: input.drop (c.ip + 1) := by
      rw [hrest, drop_eq_getElem_cons hlt]
    subst hcons
    have htoken : input[c.ip].toNat < 256 := input[c.ip].toNat_lt
    rw [if_neg (by omega), u8_eq hlt]
    refine (lz4Literals_refines (c := { c with ip := c.ip + 1 }) htoken hlt hop hlen).bind ?_
    rintro c' t' ⟨hsim, hadv⟩
    exact .ok ⟨rfl, hsim, hadv⟩
  · have hnil : rest = [] := by rw [hrest, drop_of_length_le hge]
    subst hnil
    rw [if_pos hge]
    exact reported_fail _ _

/-! ## The decoder -/

/-- What the decoder returns against the output of the plain one: as many
bytes, and the same at the start of the buffer. -/
structure Output (r : ℕ × Buffer UInt8 n) (bytes : Bytes) : Prop where
  le : r.1 ≤ n
  bytes : bytes = r.2.elems.take r.1

theorem lz4Round_rel (hlen : input.length < 2 ^ 56) {t : Plain} (h : Sim input c t) :
    Round.Rel (fun c' t' => Sim input c' t' ∧ input.length - c'.ip < input.length - c.ip)
      (Refines Stop.Reported Output) (lz4Round input c) (Lz4.round n t) := by
  refine .of_refines (lz4Head_refines h hlen) ?_
  rintro ⟨token, c₁⟩ ⟨token', t₁⟩ ⟨rfl, hsim, hadv⟩
  dsimp only at hsim hadv ⊢
  have hlast : t₁.rest = [] ↔ c₁.ip = input.length := by
    rw [hsim.rest, drop_eq_nil_iff]
    have := hsim.ip_le
    omega
  by_cases hend : c₁.ip = input.length
  · rw [if_pos hend, if_pos (hlast.mpr hend)]
    exact .stop (.ok ⟨hsim.op_le, hsim.produced⟩)
  rw [if_neg hend, if_neg (mt hlast.mp hend)]
  have hmatch := lz4Match_refines token hsim.ip_le hsim.op_le hlen
  rw [← hsim.rest, ← hsim.produced] at hmatch
  refine .of_refines hmatch fun c₂ t₂ ⟨hsim₂, hadv₂⟩ => .next ⟨hsim₂, ?_⟩
  have := hsim₂.ip_le
  omega

theorem lz4BlockDecompress_refines (hlen : input.length < 2 ^ 56) (out : Buffer UInt8 n) :
    Refines Stop.Reported Output (lz4BlockDecompress input out) (Lz4.decode n input) := by
  rw [lz4BlockDecompress]
  split
  · subst input
    exact reported_fail _ _
  · refine decodeLoop_refines (fun c t hsim => lz4Round_rel hlen hsim) ?_
    exact ⟨Nat.zero_le _, Nat.zero_le n, rfl, rfl⟩

/-- **`lz4_block_decompress` is the plain decoder**, for an input shorter
than 2⁵⁶ bytes: it succeeds where that one does, with as many bytes and
the same ones at the start of the buffer, and where that one gives up it
reports an error. -/
theorem lz4BlockDecompress_iff_decode (input : Bytes) (hlen : input.length < 2 ^ 56)
    (out : Buffer UInt8 n) :
    (∀ size buf, lz4BlockDecompress input out = .ok (size, buf) →
      size ≤ n ∧ Lz4.decode n input = some (buf.elems.take size)) ∧
    (∀ bytes, Lz4.decode n input = some bytes →
      ∃ buf, lz4BlockDecompress input out = .ok (bytes.length, buf) ∧
        buf.elems.take bytes.length = bytes) ∧
    ((∃ e, lz4BlockDecompress input out = .error (.fail e)) ↔ Lz4.decode n input = none) := by
  have h := lz4BlockDecompress_refines hlen out
  generalize lz4BlockDecompress input out = r at h
  generalize Lz4.decode n input = q at h
  cases h with
  | @ok a bytes hout =>
    obtain ⟨k, b⟩ := a
    obtain ⟨hle, rfl⟩ := hout
    refine ⟨?_, ?_, by simp⟩
    · rintro size buf ⟨⟩
      exact ⟨hle, rfl⟩
    · rintro bytes ⟨⟩
      have hsize : (b.elems.take k).length = k := Buffer.length_take hle
      exact ⟨b, by rw [hsize], by rw [hsize]⟩
  | error he =>
    obtain ⟨e, rfl⟩ := he
    exact ⟨nofun, nofun, by simp⟩

/-- A literal and a match that overlaps its own output: nine bytes in a
buffer of twelve. -/
theorem lz4BlockDecompress_iff_decode_overlap :
    ([0x14, 7, 1, 0, 0x00] : Bytes).length < 2 ^ 56 ∧ ∃ buf : Buffer UInt8 12,
        lz4BlockDecompress [0x14, 7, 1, 0, 0x00] ⟨List.replicate 12 0, length_replicate⟩
            = .ok (9, buf) ∧
          buf.elems.take 9 = List.replicate 9 7 :=
  ⟨by decide, (lz4BlockDecompress_iff_decode _ (by decide) _).2.1 (replicate 9 7) (by decide)⟩

end Nanom.Codec
