import Nanom.Wire.Pcap
/-!
# Capture files

Phase A of `nanom_shark/pcap.hpp`: `scan_blocks` walks the blocks of a
pcapng file, or the records of a classic capture, into a list of
`BlockRef`s. A section header declares the byte order of its section, so
it is looked at before the header it is part of.

A scan that succeeds has cut the whole file into blocks, one behind the
other (`Tiles`), and a packet that `parse_epb` then finds in a block lies
in that block.
-/

namespace Nanom.Wire

open List

variable {cur : Bytes} {e : EpbView} {file : Block} {little : Bool} {link off start stop : ℕ}

/-- A block or record in the file. -/
structure BlockRef where
  fileOffset : ℕ
  length : ℕ
  typeOrLink : ℕ
  kind : Kind
  littleEndian : Bool
deriving DecidableEq, Repr

variable {ref : BlockRef} {out refs rs : List BlockRef}

def kShb : ℕ := 0x0A0D0D0A
def kIdb : ℕ := 1
def kEpb : ℕ := 6
def kSpb : ℕ := 3

/-- The kind of a pcapng block by its type. -/
def kindOf (type : ℕ) : Kind :=
  if type = kShb then .shb
  else if type = kIdb then .idb
  else if type = kEpb then .epb
  else if type = kSpb then .simplePacket
  else .other

/-- What a scan comes to: the blocks found, and what was wrong with the
next one. -/
structure Scan where
  out : List BlockRef
  error : Option String
deriving DecidableEq, Repr

/-- The byte order in which the block at the front is read: a section
header's own, or that of its section. Nothing where a section header is
too short to tell. -/
def blockOrder (cur : Bytes) (little : Bool) : Option Bool :=
  if 4 ≤ cur.length ∧ leNat (cur.take 4) = kShb then
    if cur.length < 12 then none else some (leNat (subspan cur 8 4) == kByteOrderMagic)
  else some little

/-- The loop over the blocks of a pcapng file. -/
def scanPcapng (cur : Bytes) (off : ℕ) (little : Bool) (out : List BlockRef) : Scan :=
  if cur.isEmpty then ⟨out, none⟩
  else
    match blockOrder cur little with
    | none => ⟨out, some "truncated SHB"⟩
    | some little =>
      if cur.length < 8 then ⟨out, some ("truncated block header at offset " ++ toString off)⟩
      else
        let type := ordered little (subspan cur 0 4)
        let total := ordered little (subspan cur 4 4)
        if h : total < 12 ∨ total % 4 ≠ 0 ∨ total > cur.length then
          ⟨out, some ("bad block length " ++ toString total ++ " at offset " ++ toString off)⟩
        else scanPcapng (cur.drop total) (off + total) little
          (out ++ [⟨off, total, type, kindOf type, little⟩])
termination_by cur.length
decreasing_by
  rw [length_drop]
  omega

/-- The loop over the records of a classic capture. -/
def scanRecords (cur : Bytes) (off : ℕ) (little : Bool) (link : ℕ) (out : List BlockRef) : Scan :=
  if cur.isEmpty then ⟨out, none⟩
  else if h : cur.length < 16 then
    ⟨out, some ("truncated pcap record header at offset " ++ toString off)⟩
  else
    let caplen := ordered little (subspan cur 8 4)
    if caplen > cur.length - 16 then
      ⟨out, some ("truncated pcap record at offset " ++ toString off)⟩
    else scanRecords (cur.drop (16 + caplen)) (off + (16 + caplen)) little link
      (out ++ [⟨off, u32 (16 + caplen), link, .pcapRecord, little⟩])
termination_by cur.length
decreasing_by
  rw [length_drop]
  omega

/-- The number at the front of a file says what it is. -/
def isPcapMagic (magic : ℕ) : Bool :=
  magic == kMagicUsLE || magic == kMagicNsLE || magic == kMagicUsBE || magic == kMagicNsBE

def scanBlocks (file : Bytes) : Scan :=
  if file.length < 4 then ⟨[], some "file too small"⟩
  else
    let magic := leNat (file.take 4)
    if magic = kShb then scanPcapng file 0 true []
    else if isPcapMagic magic then
      let little := magic == kMagicUsLE || magic == kMagicNsLE
      if file.length < 24 then ⟨[], some "truncated pcap global header"⟩
      else
        let link := ordered little (subspan file 20 4)
        -- the global header is put out as an interface description
        scanRecords (file.drop 24) 24 little link [⟨0, 24, kIdb, .idb, little⟩]
    else ⟨[], some "not a pcap or pcapng file (unknown magic)"⟩

/-! ## Phase B in the file -/

/-- `parse_epb` over a block of a file. -/
def parseEpbAt (file : Block) (ref : BlockRef) : Option EpbView :=
  match ref.kind with
  | .epb =>
    match file.window (ref.fileOffset + 8) 20 with
    | none => none
    | some w =>
      let caplen := ordered ref.littleEndian (subspan w 12 4)
      if 28 + caplen + 4 > ref.length then none
      else some
        { interfaceId := ordered ref.littleEndian (subspan w 0 4)
          tsRaw := ordered ref.littleEndian (subspan w 4 4) * 2 ^ 32
            + ordered ref.littleEndian (subspan w 8 4)
          caplen := caplen
          origlen := ordered ref.littleEndian (subspan w 16 4)
          payloadFileOffset := u64 (ref.fileOffset + 28) }
  | .pcapRecord =>
    (file.window ref.fileOffset 16).map fun w =>
      { interfaceId := 0
        tsRaw := ordered ref.littleEndian (subspan w 0 4) * 2 ^ 32
          + ordered ref.littleEndian (subspan w 4 4)
        caplen := ordered ref.littleEndian (subspan w 8 4)
        origlen := ordered ref.littleEndian (subspan w 12 4)
        payloadFileOffset := u64 (ref.fileOffset + 16) }
  | _ => none

/-- **What `parse_epb` has checked.** -/
theorem parseEpbAt_cases (h : parseEpbAt file ref = some e) :
    (ref.kind = .epb ∧ 28 + e.caplen + 4 ≤ ref.length
      ∧ e.payloadFileOffset = u64 (ref.fileOffset + 28)
      ∧ ∃ w, file.window (ref.fileOffset + 8) 20 = some w
        ∧ e.caplen = ordered ref.littleEndian (subspan w 12 4))
    ∨ (ref.kind = .pcapRecord ∧ e.payloadFileOffset = u64 (ref.fileOffset + 16)
      ∧ ∃ w, file.window ref.fileOffset 16 = some w
        ∧ e.caplen = ordered ref.littleEndian (subspan w 8 4)) := by
  rw [parseEpbAt.eq_def] at h
  generalize file.window (ref.fileOffset + 8) 20 = w at h ⊢
  cases hkind : ref.kind with
  | epb =>
    rw [hkind] at h
    cases w with
    | none => cases h
    | some w =>
      dsimp only at h
      split at h
      · cases h
      · cases h
        exact .inl ⟨rfl, by dsimp only; omega, rfl, w, rfl, rfl⟩
  | pcapRecord =>
    rw [hkind] at h
    obtain ⟨w, hw, he⟩ := Option.map_eq_some_iff.1 h
    exact .inr ⟨rfl, by rw [← he], w, hw, by rw [← he]⟩
  | _ =>
    rw [hkind] at h
    cases h

/-! ## Tiling -/

/-- The blocks lie one behind the other, from `start` to `stop`. -/
def Tiles (stop : ℕ) : ℕ → List BlockRef → Prop
  | start, [] => start = stop
  | start, r :: rs => r.fileOffset = start ∧ Tiles stop (start + r.length) rs

theorem kindOf_ne_pcapRecord (type : ℕ) : kindOf type ≠ .pcapRecord := by
  rw [kindOf]
  split_ifs <;> exact Kind.noConfusion

/-- What a round of a pcapng scan that succeeds has found. -/
theorem scanPcapng_cases (h : scanPcapng cur off little out = ⟨refs, none⟩) :
    (cur = [] ∧ refs = out) ∨ ∃ little' type total, 12 ≤ total ∧ total ≤ cur.length
      ∧ scanPcapng (cur.drop total) (off + total) little'
        (out ++ [⟨off, total, type, kindOf type, little'⟩]) = ⟨refs, none⟩ := by
  rw [scanPcapng] at h
  split at h
  · rename_i hempty
    cases h
    exact .inl ⟨List.isEmpty_iff.1 hempty, rfl⟩
  split at h
  · cases h
  rename_i little' _
  split at h
  · cases h
  · dsimp only at h
    split at h
    · cases h
    · exact .inr ⟨little', _, _, by omega, by omega, h⟩

/-- **A pcapng scan that succeeds has tiled the file.** -/
theorem scanPcapng_tiles (h : scanPcapng cur off little out = ⟨refs, none⟩) :
    ∃ rs, refs = out ++ rs ∧ Tiles (off + cur.length) off rs
      ∧ ∀ r ∈ rs, 12 ≤ r.length ∧ r.kind ≠ .pcapRecord := by
  -- over the bytes left: a block takes twelve of them at least
  induction hn : cur.length using Nat.strongRecOn generalizing cur off little out with
  | _ n ih =>
    obtain ⟨rfl, rfl⟩ | ⟨little', type, total, hmin, hmax, hrest⟩ := scanPcapng_cases h
    · cases hn
      exact ⟨[], (append_nil refs).symm, rfl, fun r hr => (by cases hr)⟩
    have hlen : (cur.drop total).length = n - total := by rw [length_drop, hn]
    obtain ⟨rs, hrefs, htiles, hall⟩ := ih (n - total) (by omega) hrest hlen
    rw [show off + total + (n - total) = off + n by omega] at htiles
    refine ⟨⟨off, total, type, kindOf type, little'⟩ :: rs, ?_, ⟨rfl, htiles⟩, ?_⟩
    · rw [hrefs, append_assoc]
      rfl
    · intro r hr
      obtain rfl | hr := mem_cons.1 hr
      · exact ⟨hmin, kindOf_ne_pcapRecord type⟩
      · exact hall r hr

/-- What a round of a scan of records that succeeds has found. -/
theorem scanRecords_cases (h : scanRecords cur off little link out = ⟨refs, none⟩) :
    (cur = [] ∧ refs = out) ∨ ∃ caplen, caplen = ordered little (subspan cur 8 4)
      ∧ 16 + caplen ≤ cur.length ∧ scanRecords (cur.drop (16 + caplen)) (off + (16 + caplen))
        little link (out ++ [⟨off, u32 (16 + caplen), link, .pcapRecord, little⟩])
          = ⟨refs, none⟩ := by
  rw [scanRecords] at h
  split at h
  · rename_i hempty
    cases h
    exact .inl ⟨List.isEmpty_iff.1 hempty, rfl⟩
  split at h
  · cases h
  · dsimp only at h
    split at h
    · cases h
    · exact .inr ⟨_, rfl, by omega, h⟩

/-- A record as the scan has found it in the file. -/
structure IsRecord (file : Bytes) (r : BlockRef) : Prop where
  kind : r.kind = .pcapRecord
  fits : r.fileOffset + r.length ≤ file.length
  length : r.length = 16 + ordered r.littleEndian (subspan file (r.fileOffset + 8) 4)

/-- **A scan of records that succeeds has tiled them.** -/
theorem scanRecords_tiles {file : Bytes} (hfile : file.length < 2 ^ 32) (hoff : off ≤ file.length)
    (h : scanRecords (file.drop off) off little link out = ⟨refs, none⟩) :
    ∃ rs, refs = out ++ rs ∧ Tiles file.length off rs ∧ ∀ r ∈ rs, IsRecord file r := by
  -- over the bytes left: a record takes sixteen of them at least
  induction hn : file.length - off using Nat.strongRecOn generalizing off out with
  | _ n ih =>
    obtain ⟨hempty, rfl⟩ | ⟨caplen, hcap, hmax, hrest⟩ := scanRecords_cases h
    · have hend : file.length ≤ off := drop_eq_nil_iff.1 hempty
      exact ⟨[], (append_nil refs).symm, by rw [Tiles]; omega, fun r hr => (by cases hr)⟩
    rw [length_drop] at hmax
    rw [drop_drop] at hrest
    rw [subspan_drop] at hcap
    obtain ⟨rs, hrefs, htiles, hall⟩ := ih (n - (16 + caplen)) (by omega) (by omega) hrest
      (by omega)
    have hlen : u32 (16 + caplen) = 16 + caplen := u32_of_lt (by omega)
    refine ⟨⟨off, u32 (16 + caplen), link, .pcapRecord, little⟩ :: rs, ?_, ⟨rfl, ?_⟩, ?_⟩
    · rw [hrefs, append_assoc]
      rfl
    · rw [hlen]
      exact htiles
    · intro r hr
      obtain rfl | hr := mem_cons.1 hr
      · refine ⟨rfl, ?_, by rw [hlen, hcap]⟩
        show off + u32 (16 + caplen) ≤ file.length
        omega
      · exact hall r hr

/-- The packet lies in the block it was found in. -/
def Inside (ref : BlockRef) (e : EpbView) : Prop :=
  ref.fileOffset ≤ e.payloadFileOffset
    ∧ e.payloadFileOffset + e.caplen ≤ ref.fileOffset + ref.length

theorem inside_of_epb (h : parseEpbAt file ref = some e) (hkind : ref.kind ≠ .pcapRecord)
    (hoff : ref.fileOffset < 2 ^ 32) : Inside ref e := by
  obtain ⟨-, hcap, hpay, -⟩ | ⟨hk, -⟩ := parseEpbAt_cases h
  · rw [u64_of_lt (by omega)] at hpay
    exact ⟨by omega, by omega⟩
  · exact absurd hk hkind

theorem inside_of_record (h : parseEpbAt file ref = some e) (hrecord : IsRecord file.bytes ref)
    (hfile : file.bytes.length < 2 ^ 32) : Inside ref e := by
  obtain ⟨hk, -⟩ | ⟨-, hpay, w, hw, hcap⟩ := parseEpbAt_cases h
  · rw [hrecord.kind] at hk
    cases hk
  have hfits := hrecord.fits
  have hlen := hrecord.length
  rw [Block.window_of_le (by omega) (by omega), Option.some.injEq] at hw
  rw [← hw, subspan_subspan (by omega)] at hcap
  rw [u64_of_lt (by omega)] at hpay
  exact ⟨by omega, by omega⟩

theorem Tiles.le_stop (h : Tiles stop start rs) : start ≤ stop := by
  induction rs generalizing start with
  | nil => exact Nat.le_of_eq h
  | cons r rs ih => exact Nat.le_trans (Nat.le_add_right _ _) (ih h.2)

theorem Tiles.fits (h : Tiles stop start rs) {r : BlockRef}
    (hr : r ∈ rs) : r.fileOffset + r.length ≤ stop := by
  induction rs generalizing start with
  | nil => cases hr
  | cons r' rs ih =>
    obtain rfl | hr := mem_cons.1 hr
    · rw [h.1]
      exact h.2.le_stop
    · exact ih h.2 hr

/-- **A scan that succeeds has tiled the file**: a pcapng file from its
first byte to its last, a classic capture behind its global header, and
every packet found in a block lies in that block. A block takes at least
12 bytes and a record 16, so the loops end. -/
theorem scan_tiles (file : Block) (refs : List BlockRef) (hfile : file.bytes.length < 2 ^ 32)
    (h : scanBlocks file.bytes = ⟨refs, none⟩) :
    ((leNat (file.bytes.take 4) = kShb ∧ Tiles file.bytes.length 0 refs ∧ ∀ r ∈ refs, 12 ≤ r.length)
      ∨ (isPcapMagic (leNat (file.bytes.take 4)) = true ∧ ∃ little records,
        refs = ⟨0, 24, kIdb, .idb, little⟩ :: records ∧ Tiles file.bytes.length 24 records
          ∧ ∀ r ∈ records, r.kind = .pcapRecord ∧ 16 ≤ r.length))
    ∧ ∀ ref ∈ refs, ∀ e, parseEpbAt file ref = some e → Inside ref e := by
  rw [scanBlocks] at h
  split at h
  · cases h
  dsimp only at h
  split at h
  · -- pcapng
    rename_i hmagic
    obtain ⟨rs, rfl, htiles, hall⟩ := scanPcapng_tiles h
    rw [zero_add] at htiles
    refine ⟨.inl ⟨hmagic, htiles, fun r hr => (hall r hr).1⟩, fun ref href e he => ?_⟩
    have hfits := htiles.fits href
    exact inside_of_epb he (hall ref href).2 (by omega)
  split at h
  · -- a classic capture
    rename_i hmagic
    split at h
    · cases h
    obtain ⟨rs, rfl, htiles, hall⟩ := scanRecords_tiles hfile (by omega) h
    refine ⟨.inr ⟨hmagic, _, rs, rfl, htiles, fun r hr => ⟨(hall r hr).kind, ?_⟩⟩,
      fun ref href e he => ?_⟩
    · rw [(hall r hr).length]
      exact Nat.le_add_right _ _
    · obtain rfl | href := mem_cons.1 href
      · exact inside_of_epb he Kind.noConfusion (Nat.two_pow_pos 32)
      · exact inside_of_record he (hall ref href) hfile
  · cases h

/-- A classic capture with a record of one byte. -/
def tinyCapture : Bytes :=
  [0xd4, 0xc3, 0xb2, 0xa1, 2, 0, 4, 0, 0, 0, 0, 0, 0, 0, 0, 0, 0, 0, 1, 0, 1, 0, 0, 0,
    0, 0, 0, 0, 0, 0, 0, 0, 1, 0, 0, 0, 1, 0, 0, 0, 7]

theorem scan_tiles_tinyCapture :
    scanBlocks tinyCapture
      = ⟨[⟨0, 24, kIdb, .idb, true⟩, ⟨24, 17, 1, .pcapRecord, true⟩], none⟩
    ∧ ∀ ref ∈ [⟨0, 24, kIdb, .idb, true⟩, ⟨24, 17, 1, .pcapRecord, true⟩], ∀ e,
      parseEpbAt ⟨tinyCapture, fun _ => 0⟩ ref = some e → Inside ref e := by
  have hscan : scanBlocks tinyCapture
      = ⟨[⟨0, 24, kIdb, .idb, true⟩, ⟨24, 17, 1, .pcapRecord, true⟩], none⟩ := by
    decide +kernel
  exact ⟨hscan, (scan_tiles ⟨tinyCapture, fun _ => 0⟩ _ (by decide) hscan).2⟩

end Nanom.Wire
