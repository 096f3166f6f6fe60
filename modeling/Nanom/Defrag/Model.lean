import Nanom.Common.Assoc
import Nanom.Common.Bytes
import Nanom.Common.ComparisonSort
/-!
# Fragment reassembly — the table

`nanom_shark/defrag.hpp`: a table of datagrams under reassembly, fed one
fragment at a time, that hands back the completed datagram as an ordered list of
views of its fragments. It keeps two maps, from a datagram's key to its id while
the datagram is open (`keyToId`) and from the id to the entry until the entry is
evicted (`byId`).

Spans are their content, and a token names the caller's buffer a fragment's
bytes live in. Offsets, lengths and ids are 32 bits wide and packet ids 64; a
`size_t` sum of span sizes is exact. `next_id_` is read off the number of
datagrams opened so far.

`by_id_.at(id)` throws where `key_to_id_` names an id `by_id_` does not hold.
That it never does is the field `indexed`.
-/

namespace Nanom.Defrag

/-- The caller's name for the buffer a fragment's bytes live in. -/
abbrev Token := UInt64

/-- The buffer is not tracked. -/
def kNoToken : Token := 0

/-- No packet. -/
def kNoPacket : ℕ := 2 ^ 64 - 1

/-- What names an IPv4 datagram. -/
structure Ipv4Key where
  src : Bytes
  dst : Bytes
  proto : ℕ
  ident : ℕ
deriving DecidableEq, Repr

/-- What names an IPv6 datagram. -/
structure Ipv6Key where
  src : Bytes
  dst : Bytes
  ident : ℕ
deriving DecidableEq, Repr

/-- How a reassembly attempt ended. -/
inductive CompletionStatus
  | complete
  | timedOut
  | evictedCapacity
  | overlapConflict
deriving DecidableEq, Repr

/-- The number a row carries for it. -/
def CompletionStatus.toNat : CompletionStatus → ℕ
  | complete => 0
  | timedOut => 1
  | evictedCapacity => 2
  | overlapConflict => 3

/-- One reassembly attempt's outcome. -/
structure ReassemblySummary where
  datagramId : ℕ := 0
  totalLength : ℕ := 0
  fragmentCount : ℕ := 0
  firstPacketId : ℕ := kNoPacket
  lastPacketId : ℕ := kNoPacket
  completionStatus : CompletionStatus := .complete
  gapBytes : ℕ := 0
  tokens : List Token := []
deriving DecidableEq, Repr

/-- A stored fragment. -/
structure FragmentSpan where
  offsetBytes : ℕ
  packetId : ℕ
  moreFragments : Bool
  data : Bytes
  token : Token := kNoToken
deriving DecidableEq, Repr

/-- `offset_bytes + std::uint32_t(data.size())`. -/
def FragmentSpan.endBytes (f : FragmentSpan) : ℕ := u32 (f.offsetBytes + u32 f.data.length)

/-- An entry of the table. -/
structure Reassembly where
  datagramId : ℕ := 0
  fragments : List FragmentSpan := []
  totalLength : ℕ := 0
  haveLast : Bool := false
  conflict : Bool := false
  firstPacketId : ℕ := kNoPacket
  lastPacketId : ℕ := kNoPacket
  completed : Bool := false
  retired : Bool := false
  fragmentCount : ℕ := 0
  coveredHigh : ℕ := 0
  parts : List Bytes := []
  materialized : Bytes := []
deriving DecidableEq, Repr

/-- `range_equals`' loop: `skip` bytes still to pass over in the parts,
`wi` bytes of `want` already compared. -/
def rangeEqualsFrom (want : Bytes) : List Bytes → ℕ → ℕ → Bool
  | [], _, wi => wi == want.length
  | p :: ps, skip, wi =>
    if p.length ≤ skip then rangeEqualsFrom want ps (skip - p.length) wi
    else
      let here := min (p.length - skip) (want.length - wi)
      if subspan p skip here ≠ subspan want wi here then false
      else if wi + here = want.length then true
      else rangeEqualsFrom want ps 0 (wi + here)

/-- Compare `want` against the content already emitted in `parts` at
logical offset `at`. -/
def rangeEquals (parts : List Bytes) (start : ℕ) (want : Bytes) : Bool :=
  rangeEqualsFrom want parts start 0

/-- The order fragments are stitched in. -/
def spanBefore (a b : FragmentSpan) : Bool :=
  if a.offsetBytes ≠ b.offsetBytes then decide (a.offsetBytes < b.offsetBytes)
  else decide (a.packetId < b.packetId)

/-- What stitching the sorted fragments together comes to. -/
inductive Assembly
  /-- A gap, or bytes missing at the end. -/
  | incomplete
  /-- Two fragments disagree on an overlapping byte. -/
  | conflict
  /-- Every byte is there: the ordered views. -/
  | complete (parts : List Bytes)
deriving DecidableEq, Repr

/-- The overlap of `f` with the content already covered disagrees with it. -/
def overlapDisagrees (total covered : ℕ) (parts : List Bytes) (f : FragmentSpan) : Bool :=
  let clamped := min covered total
  decide (f.offsetBytes < clamped) &&
    !rangeEquals parts f.offsetBytes
      (f.data.take (min (clamped - f.offsetBytes) f.data.length))

/-- The views after `f`: its new tail, clamped to the declared total. -/
def emitTail (total covered : ℕ) (parts : List Bytes) (f : FragmentSpan) : List Bytes :=
  let clamped := min covered total
  let emitFrom := max f.offsetBytes clamped
  let emitTo := min f.endBytes total
  if emitFrom < emitTo then
    parts ++ [subspan f.data (emitFrom - f.offsetBytes) (emitTo - emitFrom)]
  else parts

/-- The stitching loop: `covered` is the unclamped high-water mark,
`parts` the views emitted so far. -/
def assemble (total : ℕ) : List FragmentSpan → ℕ → List Bytes → Assembly
  -- bytes missing at the end
  | [], covered, parts => if covered < total then .incomplete else .complete parts
  | f :: fs, covered, parts =>
    -- a gap before this fragment
    if covered < f.offsetBytes then .incomplete
    else if overlapDisagrees total covered parts f then .conflict
    else assemble total fs (if covered < f.endBytes then f.endBytes else covered)
      (emitTail total covered parts f)

/-- The limits of a table. -/
structure Config where
  maxDatagramBytes : ℕ := 64 * 1024
  maxConcurrent : ℕ := 4096
  timeoutTicks : ℕ := 30
deriving DecidableEq, Repr

/-- What one fragment came to. -/
structure Result where
  datagramId : ℕ := 0
  completed : Bool := false
  retained : Bool := false
  parts : List Bytes := []
deriving DecidableEq, Repr

namespace Reassembly

/-- The bytes an entry stores. -/
def storedBytes (r : Reassembly) : ℕ := (r.fragments.map fun f => f.data.length).sum

/-- The entry is touched, and a terminal fragment fixes its length. -/
def touch (r : Reassembly) (pid off : ℕ) (more : Bool) (payload : Bytes) : Reassembly :=
  let r := { r with lastPacketId := pid }
  if more then r
  else { r with haveLast := true, totalLength := u32 (off + u32 payload.length) }

/-- The fragment's span is stored and counted. -/
def push (r : Reassembly) (f : FragmentSpan) : Reassembly :=
  { r with
    fragments := r.fragments ++ [f]
    fragmentCount := u32 (r.fragmentCount + 1)
    coveredHigh := max r.coveredHigh f.endBytes }

/-- What the stored fragments come to. Completeness cannot be known
without the terminal fragment. -/
def stitch (σ : ComparisonSort) (r : Reassembly) : Assembly :=
  if r.haveLast then assemble r.totalLength (σ.sort spanBefore r.fragments) 0 []
  else .incomplete

/-- The stitching attempt, and what the caller is told of it. -/
def tryComplete (σ : ComparisonSort) (r : Reassembly) : Reassembly × Result :=
  match r.stitch σ with
  | .incomplete => (r, { retained := true })
  | .conflict => ({ r with conflict := true }, { retained := true })
  | .complete parts =>
    ({ r with parts := parts, completed := true },
      { completed := true, retained := true, parts := parts })

/-- What `add_fragment` does to the entry it has found or made. -/
def absorb (σ : ComparisonSort) (cfg : Config) (r : Reassembly) (f : FragmentSpan) :
    Reassembly × Result :=
  let r := r.touch f.packetId f.offsetBytes f.moreFragments f.data
  -- over the limit the fragment is not stored, but the entry stays touched
  if r.storedBytes + f.data.length > cfg.maxDatagramBytes then (r, {})
  else (r.push f).tryComplete σ

/-- Last touched `timeout_ticks` packets ago or earlier. -/
def agedOut (cfg : Config) (now : ℕ) (r : Reassembly) : Bool :=
  decide (u64 (r.lastPacketId + cfg.timeoutTicks) ≤ now) || decide (r.lastPacketId = kNoPacket)

/-- The summary an evicted entry leaves. -/
def summary (r : Reassembly) : ReassemblySummary where
  datagramId := r.datagramId
  totalLength := r.totalLength
  fragmentCount := r.fragmentCount
  firstPacketId := r.firstPacketId
  lastPacketId := r.lastPacketId
  tokens := (r.fragments.map FragmentSpan.token).filter (· ≠ kNoToken)
  completionStatus :=
    if r.conflict then .overlapConflict else if r.completed then .complete else .timedOut
  gapBytes := if r.haveLast && decide (r.coveredHigh < r.totalLength)
    then r.totalLength - r.coveredHigh else 0

end Reassembly

/-- The reassembly table. -/
structure ReassemblyTable (Key : Type) [DecidableEq Key] where
  cfg : Config
  keyToId : Assoc Key ℕ
  byId : Assoc ℕ Reassembly
  /-- The datagrams opened so far. -/
  opened : ℕ
  /-- An open key's id has an entry. -/
  indexed : ∀ k id, keyToId.find? k = some id → (byId.find? id).isSome

namespace ReassemblyTable

variable {Key : Type} [DecidableEq Key]

/-- The table before any fragment. -/
def init (cfg : Config) : ReassemblyTable Key where
  cfg := cfg
  keyToId := .empty
  byId := .empty
  opened := 0
  indexed := by simp

/-- `next_id_`: it starts at 1 and goes up by one a datagram. -/
def nextId (t : ReassemblyTable Key) : ℕ := u32 (t.opened + 1)

/-- An entry for a datagram not seen before. An id that has come round
again keeps the entry it has. -/
def create (t : ReassemblyTable Key) (key : Key) (pid : ℕ) : ReassemblyTable Key where
  cfg := t.cfg
  keyToId := t.keyToId.emplace key t.nextId
  byId := t.byId.emplace t.nextId { datagramId := t.nextId, firstPacketId := pid }
  opened := t.opened + 1
  indexed := by
    intro k id h
    rw [Assoc.find?_emplace] at h ⊢
    split
    · rfl
    rename_i hid
    split at h
    · cases hk : t.keyToId.find? key with
      | none => simp [hk, Ne.symm hid] at h
      | some id' =>
        simp only [hk, Option.getD_some, Option.some.injEq] at h
        exact t.indexed key id (h ▸ hk)
    · exact t.indexed k id h

/-- The entry of an id is rewritten in place. -/
def store (t : ReassemblyTable Key) (id : ℕ) (r : Reassembly) : ReassemblyTable Key where
  cfg := t.cfg
  keyToId := t.keyToId
  byId := t.byId.modify id fun _ => r
  opened := t.opened
  indexed k id' h := by rw [Assoc.modify_isSome]; exact t.indexed k id' h

/-- The key is freed for a new datagram. -/
def freeKey (t : ReassemblyTable Key) (key : Key) : ReassemblyTable Key where
  cfg := t.cfg
  keyToId := t.keyToId.erase key
  byId := t.byId
  opened := t.opened
  indexed k id h := by
    rw [Assoc.find?_erase] at h
    split at h
    · cases h
    · exact t.indexed k id h

/-- The entry a fragment goes to, in the table that holds it. -/
structure Slot (Key : Type) [DecidableEq Key] where
  table : ReassemblyTable Key
  id : ℕ
  found : (table.byId.find? id).isSome

/-- `by_id_.at(id)`. -/
def Slot.entry (s : Slot Key) : Reassembly := s.table.byId.get s.id s.found

theorem found_create (t : ReassemblyTable Key) (key : Key) (pid : ℕ) :
    ((t.create key pid).byId.find? t.nextId).isSome := Assoc.find?_emplace_isSome

/-- Find the key's entry or make one; nothing at capacity. -/
def slot (t : ReassemblyTable Key) (key : Key) (pid : ℕ) : Option (Slot Key) :=
  match h : t.keyToId.find? key with
  | some id => some ⟨t, id, t.indexed key id h⟩
  | none =>
    if t.byId.size ≥ t.cfg.maxConcurrent then none
    else some ⟨t.create key pid, t.nextId, t.found_create key pid⟩

/-- Feed one fragment. -/
def addFragment (σ : ComparisonSort) (t : ReassemblyTable Key) (key : Key) (f : FragmentSpan) :
    ReassemblyTable Key × Result :=
  match t.slot key f.packetId with
  | none => (t, {})
  | some s =>
    let (r, out) := s.entry.absorb σ t.cfg f
    let t' := s.table.store s.id r
    -- a completed datagram's key is open for the next one
    (if out.completed then t'.freeKey key else t', { out with datagramId := s.id })

/-- The completion release: drop every span of a completed datagram and
return the tokens they carried. -/
def retire (t : ReassemblyTable Key) (id : ℕ) : ReassemblyTable Key × List Token :=
  match t.byId.find? id with
  | none => (t, [])
  | some r =>
    if !r.completed || r.retired then (t, [])
    else (t.store id { r with fragments := [], parts := [], retired := true },
      r.fragments.map FragmentSpan.token)

/-- The completed datagram as one buffer, stitched on first use. -/
def materialize (t : ReassemblyTable Key) (id : ℕ) : ReassemblyTable Key × Option Bytes :=
  match t.byId.find? id with
  | none => (t, none)
  | some r =>
    if !r.completed then (t, none)
    -- retired before it was ever stitched: the views are gone
    else if r.retired && r.materialized.isEmpty && decide (0 < r.totalLength) then (t, none)
    else if r.materialized.isEmpty && decide (0 < r.totalLength) then
      let r := { r with materialized := r.parts.flatten }
      (t.store id r, some r.materialized)
    else (t, some r.materialized)

/-- The entries an eviction at `now` removes. -/
def stale (t : ReassemblyTable Key) (now : ℕ) : List (ℕ × Reassembly) :=
  t.byId.entries.filter fun e => e.2.agedOut t.cfg now

/-- The age-out release: remove every entry not touched for
`timeout_ticks` packets, with the key that still names it. The summaries come in
the order of opening, where the source has that of an `unordered_map`: any. -/
def evictStale (t : ReassemblyTable Key) (now : ℕ) : ReassemblyTable Key × List ReassemblySummary :=
  ({ cfg := t.cfg
     keyToId := t.keyToId.filter fun e => !(t.stale now).any fun d => d.1 == e.2
     byId := t.byId.filter fun e => !e.2.agedOut t.cfg now
     opened := t.opened
     indexed := by
       intro k id h
       rw [Assoc.find?_filter] at h ⊢
       obtain ⟨hk, hkeep⟩ := Option.filter_eq_some_iff.1 h
       obtain ⟨r, hr⟩ := Option.isSome_iff_exists.1 (t.indexed k id hk)
       have hfresh : r.agedOut t.cfg now = false := by
         by_contra haged
         have hmem : (id, r) ∈ t.stale now :=
           List.mem_filter.2 ⟨Assoc.mem_entries_iff.2 hr, by simpa using haged⟩
         simp only [Bool.not_eq_true', List.any_eq_false, beq_iff_eq] at hkeep
         exact hkeep (id, r) hmem rfl
       rw [hr]
       simp [hfresh] },
    (t.stale now).map fun e => e.2.summary)

def find (t : ReassemblyTable Key) (id : ℕ) : Option Reassembly := t.byId.find? id

end ReassemblyTable

/-- The row a datagram leaves in the output. -/
structure DatagramRow where
  datagramId : ℕ
  ipVersion : ℕ
  totalLength : ℕ
  fragmentCount : ℕ
  firstPacketId : ℕ
  lastPacketId : ℕ
  completionStatus : ℕ
  gapBytes : ℕ
deriving DecidableEq, Repr

/-- The row of an evicted entry. -/
def toDatagramRow (s : ReassemblySummary) (ipVersion : ℕ) : DatagramRow :=
  ⟨s.datagramId, ipVersion, s.totalLength, s.fragmentCount, s.firstPacketId, s.lastPacketId,
    s.completionStatus.toNat, s.gapBytes⟩

/-- The two tables a decode pass needs. -/
structure DefragState where
  ipv4 : ReassemblyTable Ipv4Key
  ipv6 : ReassemblyTable Ipv6Key

end Nanom.Defrag
