import Nanom.Decode.Session
import Nanom.Wire.Scan
/-!
# Blocks fed on their own

`feed_idb` and `feed_epb` parse a block on its own. A parse moves a cursor over
the block, and `advance` does not look whether there is enough in front of it.
`idbTrace` and `epbTrace` are the two parsers with the addresses of the cursors
they build: a block of 8 bytes or more keeps its cursors, and is refused where
it is shorter than its header.

`FeedResult::ok` is to mean that the packet fits its block. An Enhanced Packet
Block is checked for it, a classic record is not.
-/

namespace Nanom.Decode

open Wire Defrag List Nat

/-! ## The cursors of a parse -/

/-- `strct` at an address: the cursor there, and the one behind what was
read. -/
def readTrace {α : Type} (b : Block) (i n : ℕ) (f : Bytes → α) : List ℕ × Option α :=
  match b.window i n with
  | none => ([i], none)
  | some w => ([i, i + n], some (f w))

/-- The fields of an interface description. -/
def idbBody (little : Bool) (w : Bytes) : IdbView :=
  ⟨ordered little (subspan w 0 2), ordered little (subspan w 4 4)⟩

/-- The same fields of a classic capture's global header, behind its magic. -/
def globalHeader (little : Bool) (g : Bytes) : IdbView :=
  ⟨ordered little (subspan g 16 4) % 2 ^ 16, ordered little (subspan g 12 4)⟩

/-- The fields of an Enhanced Packet Block. -/
def epbBody (little : Bool) (w : Bytes) : EpbView where
  interfaceId := ordered little (subspan w 0 4)
  tsRaw := ordered little (subspan w 4 4) * 2 ^ 32 + ordered little (subspan w 8 4)
  caplen := ordered little (subspan w 12 4)
  origlen := ordered little (subspan w 16 4)
  payloadFileOffset := 28

/-- The fields of a classic record. -/
def recordHeader (little : Bool) (w : Bytes) : EpbView where
  interfaceId := 0
  tsRaw := ordered little (subspan w 0 4) * 2 ^ 32 + ordered little (subspan w 4 4)
  caplen := ordered little (subspan w 8 4)
  origlen := ordered little (subspan w 12 4)
  payloadFileOffset := 16

/-- `parse_idb`, with the addresses of the cursors it builds. -/
def idbTrace (b : Block) (length : ℕ) (little : Bool) : List ℕ × Option IdbView :=
  let body := readTrace b 8 8 (idbBody little)
  let header := readTrace b 4 20 (globalHeader little)
  if length = 24 then
    match b.window 0 4 with
    | some m =>
      if isPcapMagic (leNat m) then (0 :: header.1, header.2)
      else (0 :: 4 :: body.1, body.2)
    | none => (0 :: body.1, body.2)
  else (0 :: body.1, body.2)

/-- `parse_epb`, with the addresses of the cursors it builds. -/
def epbTrace (b : Block) (length : ℕ) (kind : Kind) (little : Bool) : List ℕ × Option EpbView :=
  let body := readTrace b 8 20 (epbBody little)
  let record := readTrace b 0 16 (recordHeader little)
  match kind with
  | .epb => (0 :: body.1, body.2.filter fun e => decide (28 + e.caplen + 4 ≤ length))
  | .pcapRecord => (0 :: record.1, record.2)
  | _ => ([], none)

section Trace

variable {α : Type} {b : Block} {i n length : ℕ} {f : Bytes → α} {little : Bool} {kind : Kind}

theorem readTrace_snd : (readTrace b i n f).2 = (b.window i n).map f := by
  rw [readTrace.eq_def]
  generalize b.window i n = w
  cases w <;> rfl

theorem mem_readTrace : i ∈ (readTrace b i n f).1 := by
  rw [readTrace]
  split <;> exact mem_cons_self

theorem readTrace_le (hi : i ≤ b.bytes.length) (hn : i + n ≤ 2 ^ 64) :
    ∀ c ∈ (readTrace b i n f).1, c ≤ b.bytes.length := by
  intro c hc
  rw [readTrace] at hc
  split at hc
  · rw [mem_singleton.1 hc]
    exact hi
  rename_i w hw
  obtain rfl | hc := mem_cons.1 hc
  · exact hi
  · rw [mem_singleton.1 hc]
    exact (Block.window_some hw hi hn).1

theorem readTrace_none (hi : i ≤ b.bytes.length) (h : b.bytes.length < i + n)
    (hn : i + n ≤ 2 ^ 64) : (readTrace b i n f).2 = none := by
  rw [readTrace_snd, Block.window_of_lt hi h (by omega), Option.map_none]

theorem idbTrace_snd : (idbTrace b length little).2 = parseIdb b length little := by
  have hbody := @readTrace_snd _ b 8 8 (idbBody little)
  have hheader := @readTrace_snd _ b 4 20 (globalHeader little)
  rw [idbTrace.eq_def, parseIdb.eq_def]
  -- the windows hide numbers of 64 bits, which are not to be computed
  generalize readTrace b 8 8 (idbBody little) = body at hbody ⊢
  generalize readTrace b 4 20 (globalHeader little) = header at hheader ⊢
  obtain ⟨_, body⟩ := body
  obtain ⟨_, header⟩ := header
  generalize b.window 0 4 = m
  cases m with
  | none => split <;> exact hbody
  | some m =>
    dsimp only
    simp only [isPcapMagic, Bool.or_eq_true, beq_iff_eq, or_assoc]
    split_ifs
    · exact hheader
    · exact hbody
    · exact hbody

theorem epbTrace_snd : (epbTrace b length kind little).2 = parseEpb b length kind little := by
  have hbody := @readTrace_snd _ b 8 20 (epbBody little)
  have hrecord := @readTrace_snd _ b 0 16 (recordHeader little)
  rw [epbTrace.eq_def, parseEpb.eq_def]
  generalize readTrace b 8 20 (epbBody little) = body at hbody ⊢
  generalize readTrace b 0 16 (recordHeader little) = record at hrecord ⊢
  obtain ⟨_, body⟩ := body
  obtain ⟨_, record⟩ := record
  generalize b.window 8 20 = w at hbody ⊢
  cases kind with
  | epb =>
    cases w with
    | none =>
      dsimp only at hbody ⊢
      rw [hbody]
      rfl
    | some w =>
      dsimp only at hbody ⊢
      rw [hbody, Option.map_some, Option.filter_some]
      by_cases h : 28 + (epbBody little w).caplen + 4 ≤ length
      · rw [if_pos (decide_eq_true h)]
        exact (if_neg (not_lt.2 h)).symm
      · rw [if_neg (by simpa using h)]
        exact (if_pos (not_le.1 h)).symm
  | pcapRecord => exact hrecord
  | _ => rfl

theorem idbTrace_cases :
    (∃ m, length = 24 ∧ b.window 0 4 = some m ∧ isPcapMagic (leNat m) = true
      ∧ (idbTrace b length little).1 = 0 :: (readTrace b 4 20 (globalHeader little)).1
      ∧ (idbTrace b length little).2 = (readTrace b 4 20 (globalHeader little)).2)
    ∨ ((∀ m, length = 24 → b.window 0 4 = some m → isPcapMagic (leNat m) = false)
      ∧ (∃ front, (front = [0] ∨ front = [0, 4])
        ∧ (idbTrace b length little).1 = front ++ (readTrace b 8 8 (idbBody little)).1)
      ∧ (idbTrace b length little).2 = (readTrace b 8 8 (idbBody little)).2) := by
  rw [idbTrace.eq_def]
  -- taken apart here: the kernel is not to compare a pair with a read
  generalize readTrace b 8 8 (idbBody little) = body
  generalize readTrace b 4 20 (globalHeader little) = header
  obtain ⟨_, body⟩ := body
  obtain ⟨_, header⟩ := header
  by_cases hlength : length = 24
  · generalize b.window 0 4 = m
    cases m with
    | none =>
      rw [if_pos hlength]
      exact .inr ⟨fun m _ h => (by cases h), ⟨[0], .inl rfl, rfl⟩, rfl⟩
    | some m =>
      rw [if_pos hlength]
      cases hmagic : isPcapMagic (leNat m) with
      | true =>
        dsimp only
        rw [if_pos hmagic]
        exact .inl ⟨m, hlength, rfl, hmagic, rfl, rfl⟩
      | false =>
        dsimp only
        rw [if_neg (by rw [hmagic]; exact Bool.false_ne_true)]
        refine .inr ⟨fun m' _ h => ?_, ⟨[0, 4], .inr rfl, rfl⟩, rfl⟩
        cases h
        exact hmagic
  · rw [if_neg hlength]
    exact .inr ⟨fun m h => absurd h hlength, ⟨[0], .inl rfl, rfl⟩, rfl⟩

theorem epbTrace_epb :
    (epbTrace b length .epb little).1 = 0 :: (readTrace b 8 20 (epbBody little)).1
      ∧ (epbTrace b length .epb little).2
        = (readTrace b 8 20 (epbBody little)).2.filter fun e =>
          decide (28 + e.caplen + 4 ≤ length) := by
  rw [epbTrace.eq_def]
  generalize readTrace b 8 20 (epbBody little) = body
  obtain ⟨_, body⟩ := body
  exact ⟨rfl, rfl⟩

theorem epbTrace_pcapRecord :
    (epbTrace b length .pcapRecord little).1 = 0 :: (readTrace b 0 16 (recordHeader little)).1
      ∧ (epbTrace b length .pcapRecord little).2
        = (readTrace b 0 16 (recordHeader little)).2 := by
  rw [epbTrace.eq_def]
  generalize readTrace b 0 16 (recordHeader little) = record
  obtain ⟨_, record⟩ := record
  exact ⟨rfl, rfl⟩

end Trace

/-! ## Blocks shorter than their header -/

/-- The block is a classic capture's global header: it is declared to be
24 bytes long and starts with one of the magics. -/
def IsGlobalHeader (b : Block) (length : ℕ) : Prop :=
  length = 24 ∧ 4 ≤ b.bytes.length ∧ isPcapMagic (leNat (subspan b.bytes 0 4)) = true

instance (b : Block) (length : ℕ) : Decidable (IsGlobalHeader b length) :=
  inferInstanceAs (Decidable (_ ∧ _ ∧ _))

/-- The bytes of an interface description that are read. -/
def idbHeaderSize (b : Block) (length : ℕ) : ℕ := if IsGlobalHeader b length then 24 else 16

/-- The bytes of a packet block that are read before its payload. -/
def epbHeaderSize : Kind → ℕ
  | .pcapRecord => 16
  | _ => 28

/-- No cursor is past the end, and a short block is refused. -/
structure Refuses {α : Type} (b : Block) (header : ℕ) (cursors : List ℕ) (result : Option α) :
    Prop where
  within : ∀ c ∈ cursors, c ≤ b.bytes.length
  short : b.bytes.length < header → result = none

variable {b : Block} {length : ℕ} {little : Bool}

theorem idb_refuses (h : 8 ≤ b.bytes.length) : Refuses b (idbHeaderSize b length)
    (idbTrace b length little).1 (idbTrace b length little).2 := by
  obtain ⟨m, hlength, hm, hmagic, hcursors, hresult⟩ | ⟨hmagic, ⟨front, hfront, hcursors⟩,
    hresult⟩ := @idbTrace_cases b length little
  · obtain ⟨-, rfl⟩ := Block.window_some hm (zero_le _) (by omega)
    have hsize : idbHeaderSize b length = 24 := if_pos ⟨hlength, by omega, hmagic⟩
    rw [hcursors, hresult, hsize]
    refine ⟨fun c hc => ?_, fun hshort => readTrace_none (by omega) (by omega) (by omega)⟩
    obtain rfl | hc := mem_cons.1 hc
    · exact zero_le _
    · exact readTrace_le (by omega) (by omega) c hc
  rw [hcursors, hresult]
  refine ⟨fun c hc => ?_, fun hshort => ?_⟩
  · obtain hc | hc := mem_append.1 hc
    · have hle : c = 0 ∨ c = 4 := by
        obtain rfl | rfl := hfront <;> simp_all
      omega
    · exact readTrace_le h (by omega) c hc
  · have hnot : ¬ IsGlobalHeader b length := fun ⟨hl, h4, hyes⟩ => by
      rw [idbHeaderSize] at hshort
      have := hmagic _ hl (Block.window_of_le (by omega) (by split at hshort <;> omega))
      rw [this] at hyes
      cases hyes
    rw [idbHeaderSize, if_neg hnot] at hshort
    exact readTrace_none h (by omega) (by omega)

theorem idb_past_end (hnot : ¬ IsGlobalHeader b length) : 8 ∈ (idbTrace b length little).1 := by
  obtain ⟨m, hlength, hm, hmagic, -⟩ | ⟨-, ⟨front, -, hcursors⟩, -⟩ :=
    @idbTrace_cases b length little
  · obtain ⟨hfits, rfl⟩ := Block.window_some hm (zero_le _) (by omega)
    exact absurd ⟨hlength, by omega, hmagic⟩ hnot
  · rw [hcursors]
    exact mem_append_right _ mem_readTrace

theorem idb_refuses_magic (h : b.bytes.length < 8) (hheader : IsGlobalHeader b length) :
    Refuses b (idbHeaderSize b length) (idbTrace b length little).1
      (idbTrace b length little).2 := by
  obtain ⟨hlength, h4, hyes⟩ := hheader
  obtain ⟨m, -, -, -, hcursors, hresult⟩ | ⟨hmagic, -⟩ := @idbTrace_cases b length little
  · rw [hcursors, hresult]
    refine ⟨fun c hc => ?_, fun _ => readTrace_none h4 (by omega) (by omega)⟩
    obtain rfl | hc := mem_cons.1 hc
    · exact zero_le _
    · exact readTrace_le h4 (by omega) c hc
  · rw [hmagic _ hlength (Block.window_of_le (by omega) (by omega))] at hyes
    cases hyes

theorem idb_refuses_iff : Refuses b (idbHeaderSize b length) (idbTrace b length little).1
    (idbTrace b length little).2 ↔ 8 ≤ b.bytes.length ∨ IsGlobalHeader b length := by
  constructor
  · intro h
    by_contra hnot
    obtain ⟨hlen, hheader⟩ := not_or.1 hnot
    have := h.within 8 (idb_past_end hheader)
    omega
  · intro h
    by_cases hlen : 8 ≤ b.bytes.length
    · exact idb_refuses hlen
    · exact idb_refuses_magic (by omega) (h.resolve_left hlen)

theorem epb_refuses_iff {kind : Kind} : Refuses b (epbHeaderSize kind)
    (epbTrace b length kind little).1 (epbTrace b length kind little).2
      ↔ (kind = .epb → 8 ≤ b.bytes.length) := by
  cases kind with
  | epb =>
    obtain ⟨hcursors, hresult⟩ := @epbTrace_epb b length little
    rw [hcursors, hresult]
    constructor
    · intro h _
      exact h.within 8 (mem_cons_of_mem _ mem_readTrace)
    · intro h
      refine ⟨fun c hc => ?_, fun hshort => ?_⟩
      · obtain rfl | hc := mem_cons.1 hc
        · exact zero_le _
        · exact readTrace_le (h rfl) (by omega) c hc
      · have hshort : b.bytes.length < 28 := hshort
        rw [readTrace_none (h rfl) (by omega) (by omega), Option.filter_none]
  | pcapRecord =>
    obtain ⟨hcursors, hresult⟩ := @epbTrace_pcapRecord b length little
    rw [hcursors, hresult]
    refine ⟨fun _ h => (by cases h), fun _ => ⟨fun c hc => ?_, fun hshort => ?_⟩⟩
    · obtain rfl | hc := mem_cons.1 hc
      · exact zero_le _
      · exact readTrace_le (zero_le _) (by omega) c hc
    · have hshort : b.bytes.length < 16 := hshort
      exact readTrace_none (zero_le _) (by omega) (by omega)
  | _ => exact ⟨fun _ h => (by cases h), fun _ => ⟨fun c hc => (by cases hc), fun _ => rfl⟩⟩

/-- The length that `feed_idb` declares. -/
def refLength (b : Block) (declaredLength : ℕ) : ℕ :=
  if declaredLength ≠ 0 then declaredLength else u32 b.bytes.length

/-- **Which blocks keep their cursors.** An interface description does
from 8 bytes on, or as far as the magic of a global header, and a packet
block from 8 bytes on; a classic record always does. -/
theorem short_refused_iff (b : Block) (little : Bool) (declaredLength : ℕ) (kind : Kind) :
    (Refuses b (idbHeaderSize b (refLength b declaredLength))
        (idbTrace b (refLength b declaredLength) little).1
        (parseIdb b (refLength b declaredLength) little)
      ↔ 8 ≤ b.bytes.length ∨ IsGlobalHeader b (refLength b declaredLength))
    ∧ (Refuses b (epbHeaderSize kind) (epbTrace b (u32 b.bytes.length) kind little).1
        (parseEpb b (u32 b.bytes.length) kind little)
      ↔ (kind = .epb → 8 ≤ b.bytes.length)) := by
  rw [← idbTrace_snd, ← epbTrace_snd]
  exact ⟨idb_refuses_iff, epb_refuses_iff⟩

/-- No bytes at all are taken for an interface description: its link type
is read from the memory behind. -/
theorem empty_idb_accepted : ¬ Refuses ⟨[], fun _ => 0⟩ (idbHeaderSize ⟨[], fun _ => 0⟩ 0)
        (idbTrace ⟨[], fun _ => 0⟩ 0 true).1 (parseIdb ⟨[], fun _ => 0⟩ 0 true)
      ∧ ((Session.init {}).feedIdb ⟨[], fun _ => 0⟩ true 0).ifaceLink = [0] := by
  refine ⟨fun h => ?_, by decide +kernel⟩
  rw [← idbTrace_snd, idb_refuses_iff] at h
  revert h
  decide

/-! ## What `ok` means -/

section Ok

variable {σ : ComparisonSort} {opts : DecodeOptions} {s : Session} {token : Token} {kind : Kind}
variable {fileOffset : ℕ}

theorem ok_iff : (s.feedEpb σ opts b little token kind fileOffset).2.1.ok = true
    ↔ ∃ e, parseEpb b (u32 b.bytes.length) kind little = some e := by
  rw [Session.feedEpb]
  generalize parseEpb b (u32 b.bytes.length) kind little = r
  cases r with
  | none => exact ⟨fun h => (by cases h), fun ⟨e, he⟩ => (by cases he)⟩
  | some e => exact ⟨fun _ => ⟨e, rfl⟩, fun _ => rfl⟩

/-- **A refused block leaves nothing behind.** -/
theorem refused_silent (h : (s.feedEpb σ opts b little token kind fileOffset).2.1.ok = false) :
    (s.feedEpb σ opts b little token kind fileOffset).2.2 = []
      ∧ (s.feedEpb σ opts b little token kind fileOffset).1.pid = s.pid := by
  rw [Session.feedEpb] at h ⊢
  generalize parseEpb b (u32 b.bytes.length) kind little = r at h ⊢
  cases r with
  | none => exact ⟨rfl, rfl⟩
  | some e => cases h

theorem epb_fits {e : EpbView} (h : parseEpb b length .epb little = some e) :
    e.payloadFileOffset + e.caplen ≤ length := by
  rw [← epbTrace_snd, epbTrace_epb.2, Option.filter_eq_some_iff] at h
  obtain ⟨hread, hcap⟩ := h
  rw [readTrace_snd] at hread
  obtain ⟨w, -, rfl⟩ := Option.map_eq_some_iff.1 hread
  have hcap := of_decide_eq_true hcap
  show 28 + (epbBody little w).caplen ≤ length
  omega

theorem parseEpb_record (h : 16 ≤ b.bytes.length) (hlen : b.bytes.length < 2 ^ 64) :
    parseEpb b length .pcapRecord little = some (recordHeader little (subspan b.bytes 0 16)) := by
  rw [← epbTrace_snd, epbTrace_pcapRecord.2, readTrace_snd, Block.window_of_le h hlen,
    Option.map_some]

theorem record_of_parseEpb {e : EpbView} (h : parseEpb b length .pcapRecord little = some e) :
    e = recordHeader little (subspan b.bytes 0 16) := by
  rw [← epbTrace_snd, epbTrace_pcapRecord.2, readTrace_snd] at h
  obtain ⟨w, hw, rfl⟩ := Option.map_eq_some_iff.1 h
  rw [(Block.window_some hw (zero_le _) (by omega)).2]

theorem recordHeader_caplen :
    (recordHeader little (subspan b.bytes 0 16)).caplen
      = ordered little (subspan b.bytes 8 4) := by
  show ordered little (subspan (subspan b.bytes 0 16) 8 4) = _
  rw [subspan_subspan (by omega)]

/-- **When `ok` means that the packet fits.** An Enhanced Packet Block is
checked, a classic record is taken at its word. -/
theorem ok_fits_iff (σ : ComparisonSort) (opts : DecodeOptions) (s : Session) (b : Block)
    (little : Bool) (token : Token) (kind : Kind) (fileOffset : ℕ)
    (hlen : 28 ≤ b.bytes.length) (hkind : kind = .epb ∨ kind = .pcapRecord) :
    (((s.feedEpb σ opts b little token kind fileOffset).2.1.ok = true →
        ∃ e, parseEpb b (u32 b.bytes.length) kind little = some e
          ∧ e.payloadFileOffset + e.caplen ≤ b.bytes.length)
      ∧ ((s.feedEpb σ opts b little token kind fileOffset).2.1.ok = false →
        (s.feedEpb σ opts b little token kind fileOffset).2.2 = []
          ∧ (s.feedEpb σ opts b little token kind fileOffset).1.pid = s.pid))
    ↔ (kind = .pcapRecord → 16 + ordered little (subspan b.bytes 8 4) ≤ b.bytes.length) := by
  refine ⟨fun h hrecord => ?_, fun h => ⟨fun hok => ?_, refused_silent⟩⟩
  · subst hrecord
    by_cases hmem : b.bytes.length < 2 ^ 64
    · have hparse := @parseEpb_record b (u32 b.bytes.length) little (by omega) hmem
      obtain ⟨e, he, hfits⟩ := h.1 (ok_iff.2 ⟨_, hparse⟩)
      rw [record_of_parseEpb he, recordHeader_caplen] at hfits
      exact hfits
    · -- a record of 32 bits does not reach past so much memory
      have hcap := ordered_lt little (subspan b.bytes 8 4)
      rw [length_subspan (by omega)] at hcap
      omega
  · obtain ⟨e, he⟩ := ok_iff.1 hok
    refine ⟨e, he, ?_⟩
    obtain rfl | rfl := hkind
    · exact le_trans (epb_fits he) (mod_le _ _)
    · rw [record_of_parseEpb he, recordHeader_caplen]
      exact h rfl

/-- A record with 12 bytes of packet, which declares some number of them. -/
def sampleRecord (caplen : UInt8) : Block where
  bytes := [0, 0, 0, 0, 0, 0, 0, 0, caplen, 0, 0, 0, 13, 0, 0, 0,
    1, 2, 3, 4, 5, 6, 7, 8, 9, 10, 11, 12]
  past := fun _ => 0

theorem ok_fits_iff_sampleRecord :
    28 ≤ (sampleRecord 12).bytes.length
      ∧ ∀ σ, ((Session.init {}).feedEpb σ {} (sampleRecord 12) true 0 .pcapRecord 0).2.1.ok = true →
        ∃ e, parseEpb (sampleRecord 12) (u32 (sampleRecord 12).bytes.length) .pcapRecord true
          = some e ∧ e.payloadFileOffset + e.caplen ≤ (sampleRecord 12).bytes.length :=
  ⟨by decide, fun σ => ((ok_fits_iff σ {} (Session.init {}) (sampleRecord 12) true 0 .pcapRecord 0
    (by decide) (.inr rfl)).2 fun _ => by decide).1⟩

/-- One byte more than there is, and the record is still fine. -/
theorem long_record_ok :
    (∀ σ, ((Session.init {}).feedEpb σ {} (sampleRecord 13) true 0 .pcapRecord 0).2.1.ok = true)
      ∧ ∃ e, parseEpb (sampleRecord 13) (u32 (sampleRecord 13).bytes.length) .pcapRecord true
        = some e ∧ (sampleRecord 13).bytes.length < e.payloadFileOffset + e.caplen := by
  have hparse : parseEpb (sampleRecord 13) (u32 (sampleRecord 13).bytes.length) .pcapRecord true
      = some (recordHeader true (subspan (sampleRecord 13).bytes 0 16)) :=
    parseEpb_record (by decide) (by decide)
  exact ⟨fun σ => ok_iff.2 ⟨_, hparse⟩, _, hparse, by decide⟩

end Ok

end Nanom.Decode
