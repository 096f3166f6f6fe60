import Nanom.Someip.Discovery
/-!
# What an option's report depends on

`sd_decode_endpoint` is given the region of the options as its end, not the
option. An endpoint option that declares less than an endpoint takes is
therefore completed with the bytes behind it, where the region has them
(`local_iff`). With its full length, or at the end of the region, a report
is made of the option's own bytes.
-/

namespace Nanom.Someip

open List

open Segmented (SegInput)

/-! ## The options of a payload -/

/-- The length of the entries, as declared. -/
def entriesLen (b : Bytes) : ℕ := beNat (subspan b 4 4)

/-- Where the options end, as declared. -/
def regionEnd (b : Bytes) : ℕ :=
  kSomeipSdPreambleLen + entriesLen b + 4
    + beNat (subspan b (kSomeipSdPreambleLen + entriesLen b) 4)

def SdCall.isOption : SdCall → Bool
  | .option _ _ _ _ => true
  | .entry _ _ => false

/-- The options that are reported. -/
def reportedOptions (hdr : SomeipHeader) (payload : SegInput) : List SdOption :=
  if hdr.serviceId ≠ kSomeipSdServiceId ∨ hdr.methodId ≠ kSomeipSdMethodId then []
  else if payload.size < kSomeipSdPreambleLen then []
  else sdOptionRegion payload (entriesLen payload.content)

variable {hdr : SomeipHeader} {payload : SegInput}

theorem isOption_sdEntries (n : ℕ) : ∀ c ∈ sdEntries payload n, c.isOption = false := by
  intro c hc
  obtain ⟨i, -, hi⟩ := mem_filterMap.1 hc
  split at hi
  · cases hi
    rfl
  · cases hi

/-- They are the options the walk calls back for, in order. -/
theorem reportedOptions_calls :
    (forEachSdChild hdr payload).filter SdCall.isOption
      = (reportedOptions hdr payload).map SdOption.call := by
  rw [forEachSdChild, reportedOptions]
  split
  · rfl
  split
  · rfl
  rename_i hsize
  rw [payload.size_eq, kSomeipSdPreambleLen] at hsize
  obtain ⟨rest, hread⟩ := @segBe32_advance payload 4 (by omega)
  rw [hread]
  rw [filter_append, filter_eq_nil_iff.2 fun c hc => ?_, nil_append,
    filter_eq_self.2 fun c hc => ?_, entriesLen]
  · obtain ⟨o, -, rfl⟩ := mem_map.1 hc
    rfl
  · rw [isOption_sdEntries _ c hc]
    exact Bool.false_ne_true

theorem sdOptionRegion_eq : sdOptionRegion payload (entriesLen payload.content)
    = if kSomeipSdPreambleLen + entriesLen payload.content + 4 ≤ payload.content.length then
        sdOptions payload (min (regionEnd payload.content) payload.content.length)
          (kSomeipSdPreambleLen + entriesLen payload.content + 4) 0
      else [] := by
  rw [sdOptionRegion, payload.size_eq]
  by_cases h : kSomeipSdPreambleLen + entriesLen payload.content + 4 ≤ payload.content.length
  · obtain ⟨rest, hread⟩ := segBe32_advance h
    rw [if_neg (by omega), if_pos h, hread]
    dsimp only
    congr 1
    rw [regionEnd]
    split <;> omega
  · rw [if_pos (by omega), if_neg h]

/-! ## One walk -/

/-- What is known of an option that the loop reports. -/
structure ReportedAt (b : Bytes) (optEnd : ℕ) (o : SdOption) : Prop where
  fits : o.start + 3 + o.length ≤ optEnd
  length : o.length = lengthAt b o.start
  type : o.type = typeAt b o.start
  endpoint : o.endpoint
    = (sdDecodeEndpoint (subspan b o.start (min kSdEndpointProbe (optEnd - o.start))) o.type).2

theorem sdOptions_reported {optEnd opt oi i : ℕ} {o : SdOption}
    (hend : optEnd ≤ payload.content.length) (h : (sdOptions payload optEnd opt oi)[i]? = some o) :
    opt ≤ o.start ∧ ReportedAt payload.content optEnd o := by
  induction i generalizing opt oi with
  | zero =>
    rw [sdOptions_eq hend] at h
    split at h
    · rename_i hfits
      cases h
      exact ⟨le_refl _, hfits, rfl, rfl, rfl⟩
    · cases h
  | succ i ih =>
    rw [sdOptions_eq hend] at h
    split at h
    · obtain ⟨hle, hreported⟩ := ih h
      exact ⟨by omega, hreported⟩
    · cases h

/-! ## Two walks -/

section Agree

variable {b c : Bytes} {n k m : ℕ}

theorem subspan_take (h : k + m ≤ n) : subspan (b.take n) k m = subspan b k m := by
  rw [subspan, subspan, drop_take, take_take, min_eq_left (by omega)]

theorem subspan_agree (h : c.take n = b.take n) (hk : k + m ≤ n) :
    subspan c k m = subspan b k m := by
  rw [← subspan_take hk, h, subspan_take hk]

theorem lengthAt_agree (h : c.take n = b.take n) (hk : k + 2 ≤ n) :
    lengthAt c k = lengthAt b k := by
  rw [lengthAt, subspan_agree h hk, lengthAt]

theorem typeAt_agree (h : c.take n = b.take n) (hk : k + 3 ≤ n) : typeAt c k = typeAt b k := by
  have hget := congrArg (fun l => l[k + 2]?) h
  rw [getElem?_take_of_lt (by omega), getElem?_take_of_lt (by omega)] at hget
  rw [typeAt, hget, typeAt]

/-- **Two walks stay together** while they read what they share. -/
theorem sdOptions_agree {payload' : SegInput} {optEnd optEnd' opt oi i : ℕ} {o : SdOption}
    (hend : optEnd ≤ payload.content.length) (hend' : optEnd' ≤ payload'.content.length)
    (h : (sdOptions payload optEnd opt oi)[i]? = some o)
    (hagree : payload'.content.take (o.start + 3 + o.length)
      = payload.content.take (o.start + 3 + o.length)) (hfits : o.start + 3 + o.length ≤ optEnd') :
    ∃ o', (sdOptions payload' optEnd' opt oi)[i]? = some o' ∧ o'.start = o.start := by
  induction i generalizing opt oi with
  | zero =>
    rw [sdOptions_eq hend] at h
    split at h
    · cases h
      dsimp only at hagree hfits
      rw [sdOptions_eq hend', lengthAt_agree hagree (by omega), if_pos hfits]
      exact ⟨_, rfl, rfl⟩
    · cases h
  | succ i ih =>
    rw [sdOptions_eq hend] at h
    split at h
    · have hle := (sdOptions_reported hend h).1
      rw [sdOptions_eq hend', lengthAt_agree hagree (by omega), if_pos (by omega)]
      exact ih h
    · cases h

end Agree

/-! ## What an endpoint is decoded from -/

def isEndpoint (type : ℕ) : Bool := isV4 type || isV6 type

/-- The bytes of an endpoint option, from its length on. -/
def endpointSize (type : ℕ) : ℕ := 4 + addressSize type + 4

section Decode

variable {b : Bytes} {type n : ℕ}

theorem endpointSize_le : endpointSize type ≤ kSdEndpointProbe := by
  rw [endpointSize, addressSize, kSdEndpointProbe]
  split <;> omega

theorem sdDecodeEndpoint_other (h : isEndpoint type = false) :
    (sdDecodeEndpoint b type).2 = {} := by
  obtain ⟨h4, h6⟩ := Bool.or_eq_false_iff.1 h
  rw [sdDecodeEndpoint, h4, h6]
  rfl

theorem sdDecodeEndpoint_short (h : b.length < endpointSize type) :
    (sdDecodeEndpoint b type).2 = {} := by
  rw [endpointSize] at h
  rw [sdDecodeEndpoint]
  split
  · rfl
  · rw [if_pos (by omega)]

/-- Nothing behind an endpoint is looked at. -/
theorem sdDecodeEndpoint_take (h : endpointSize type ≤ n) :
    sdDecodeEndpoint (b.take n) type = sdDecodeEndpoint b type := by
  rw [endpointSize] at h
  rw [sdDecodeEndpoint, sdDecodeEndpoint]
  dsimp only
  rw [subspan_take (by omega), subspan_take (by omega), getElem?_take_of_lt (by omega), length_take]
  split
  · rfl
  · by_cases hb : 4 + addressSize type + 1 + 1 + 2 > b.length
    · rw [if_pos hb, if_pos (by omega)]
    · rw [if_neg hb, if_neg (by omega)]

theorem port_last {front : Bytes} (htype : isEndpoint type = true)
    (hfront : front.length + 1 = endpointSize type) (x : UInt8) :
    (sdDecodeEndpoint (front ++ [x]) type).2.port % 256 = x.toNat := by
  have hx := x.toNat_lt
  have hnot : (!isV4 type && !isV6 type) = false := by rw [← Bool.not_or]; exact congrArg not htype
  rw [endpointSize] at hfront
  rw [sdDecodeEndpoint, hnot, if_neg Bool.false_ne_true]
  rw [if_neg (by rw [length_append, length_singleton]; omega)]
  dsimp only
  rw [subspan, drop_append_of_le_length (by omega), take_of_length_le (by
      rw [length_append, length_drop, length_singleton]; omega),
    beNat_append_singleton]
  omega

end Decode

/-! ## Locality -/

section Local

variable {i : ℕ} {o : SdOption}

/-- A reported option, with the header and the sizes that led to it. -/
theorem reported_cases (h : (reportedOptions hdr payload)[i]? = some o) :
    ¬ (hdr.serviceId ≠ kSomeipSdServiceId ∨ hdr.methodId ≠ kSomeipSdMethodId)
      ∧ kSomeipSdPreambleLen + entriesLen payload.content + 4 ≤ payload.content.length
      ∧ (sdOptions payload (min (regionEnd payload.content) payload.content.length)
          (kSomeipSdPreambleLen + entriesLen payload.content + 4) 0)[i]? = some o := by
  rw [reportedOptions] at h
  split at h
  · cases h
  rename_i hhdr
  split at h
  · cases h
  rw [sdOptionRegion_eq] at h
  split at h
  · rename_i hsize
    exact ⟨hhdr, hsize, h⟩
  · cases h

theorem reportedOptions_of (hhdr : ¬ (hdr.serviceId ≠ kSomeipSdServiceId
      ∨ hdr.methodId ≠ kSomeipSdMethodId))
    (hsize : kSomeipSdPreambleLen + entriesLen payload.content + 4 ≤ payload.content.length) :
    reportedOptions hdr payload
      = sdOptions payload (min (regionEnd payload.content) payload.content.length)
          (kSomeipSdPreambleLen + entriesLen payload.content + 4) 0 := by
  rw [reportedOptions, if_neg hhdr, payload.size_eq, if_neg (by omega), sdOptionRegion_eq,
    if_pos hsize]

/-- **Another payload with the same bytes up to the option's end** reports
the option too, from what its own region has. -/
theorem reported_agree {payload' : SegInput} (h : (reportedOptions hdr payload)[i]? = some o)
    (hagree : payload'.content.take (o.start + 3 + o.length)
      = payload.content.take (o.start + 3 + o.length)) :
    ∃ o', (reportedOptions hdr payload')[i]? = some o' ∧ o'.start = o.start
      ∧ o'.type = o.type
      ∧ o'.endpoint = (sdDecodeEndpoint (subspan payload'.content o.start (min kSdEndpointProbe
        (min (regionEnd payload.content) payload'.content.length - o.start))) o.type).2 := by
  obtain ⟨hhdr, hsize, hloop⟩ := reported_cases h
  have hend := min_le_right (regionEnd payload.content) payload.content.length
  obtain ⟨hstart, hreported⟩ := sdOptions_reported hend hloop
  have hfits := hreported.fits
  rw [kSomeipSdPreambleLen] at *
  -- the declared lengths lie before the option
  have hentries : entriesLen payload'.content = entriesLen payload.content := by
    rw [entriesLen, subspan_agree hagree (by omega), entriesLen]
  have hregion : regionEnd payload'.content = regionEnd payload.content := by
    rw [regionEnd, hentries, kSomeipSdPreambleLen, subspan_agree hagree (by omega), regionEnd,
      kSomeipSdPreambleLen]
  have hlen : o.start + 3 + o.length ≤ payload'.content.length := by
    have hlengths := congrArg List.length hagree
    rw [length_take, length_take] at hlengths
    omega
  have hend' := min_le_right (regionEnd payload.content) payload'.content.length
  have hloop' := sdOptions_agree hend hend' hloop hagree (by omega)
  obtain ⟨o', ho', hstart'⟩ := hloop'
  have hreported' := (sdOptions_reported hend' ho').2
  have htype : o'.type = o.type := by
    rw [hreported'.type, hreported.type, hstart', typeAt_agree hagree (by omega)]
  refine ⟨o', ?_, hstart', htype, ?_⟩
  · rw [reportedOptions_of hhdr (by rw [kSomeipSdPreambleLen]; omega), hentries, hregion,
      kSomeipSdPreambleLen, ho']
  · rw [hreported'.endpoint, hstart', htype]

/-- The bytes up to an option's end, then filled up to the end of an
endpoint with a chosen last byte. -/
def completed (b : Bytes) (o : SdOption) (x : UInt8) : Bytes :=
  b.take (o.start + 3 + o.length)
    ++ (List.replicate (endpointSize o.type - (3 + o.length) - 1) 0 ++ [x])

/-- Where an endpoint does not fit its option but does fit the region, the
bytes behind the option are reported. -/
theorem reported_completed (h : (reportedOptions hdr payload)[i]? = some o)
    (htype : isEndpoint o.type = true) (hshort : 3 + o.length < endpointSize o.type)
    (hregion : o.start + endpointSize o.type ≤ regionEnd payload.content) (x : UInt8) :
    (completed payload.content o x).take (o.start + 3 + o.length)
        = payload.content.take (o.start + 3 + o.length)
      ∧ ∀ o', (reportedOptions hdr (.ofParts [completed payload.content o x]))[i]? = some o' →
        o'.endpoint.port % 256 = x.toNat := by
  obtain ⟨-, -, hloop⟩ := reported_cases h
  have hfits := (sdOptions_reported (min_le_right _ _) hloop).2.fits
  have hfront : (payload.content.take (o.start + 3 + o.length)).length
      = o.start + 3 + o.length := by
    rw [length_take]
    omega
  have htake : (completed payload.content o x).take (o.start + 3 + o.length)
      = payload.content.take (o.start + 3 + o.length) := take_left' hfront
  have hcontent : (SegInput.ofParts [completed payload.content o x]).content
      = completed payload.content o x := by
    rw [(Segmented.Rep.ofParts _).bytes]
    exact flatten_singleton
  have hlength : (completed payload.content o x).length = o.start + endpointSize o.type := by
    rw [completed, length_append, length_append, length_replicate, length_singleton]
    omega
  refine ⟨htake, fun o' ho' => ?_⟩
  have hagree := @reported_agree hdr payload i o (.ofParts [completed payload.content o x]) h
    (by rw [hcontent, htake])
  obtain ⟨o'', ho'', -, -, hendpoint⟩ := hagree
  rw [ho', Option.some.injEq] at ho''
  have hprobe : min kSdEndpointProbe (min (regionEnd payload.content)
      (o.start + endpointSize o.type) - o.start) = endpointSize o.type := by
    have := @endpointSize_le o.type
    omega
  rw [ho'', hendpoint, hcontent, hlength, hprobe]
  have hob : subspan (completed payload.content o x) o.start (endpointSize o.type)
      = (subspan payload.content o.start (3 + o.length)
        ++ replicate (endpointSize o.type - (3 + o.length) - 1) 0) ++ [x] := by
    rw [subspan, completed, drop_append_of_le_length (by omega), drop_take,
      append_assoc, show o.start + 3 + o.length - o.start = 3 + o.length by omega]
    refine take_of_length_le ?_
    rw [length_append, length_append, length_replicate, length_singleton, length_take]
    omega
  rw [hob]
  refine port_last htype ?_ x
  rw [length_append, length_replicate, length_subspan (by omega)]
  omega

theorem length_subspan_le (b : Bytes) (k n : ℕ) : (subspan b k n).length ≤ n := length_take_le _ _

/-- What an option with its full length, or at the end of the region, is
decoded to in any payload. -/
theorem decode_own {b c : Bytes} {k n m type stop : ℕ} (hagree : c.take (k + n) = b.take (k + n))
    (hn : k + n ≤ stop) (hm : m = min kSdEndpointProbe (stop - k))
    (hcond : isEndpoint type = false ∨ endpointSize type ≤ n ∨ stop < k + endpointSize type) :
    (sdDecodeEndpoint (subspan c k m) type).2 = (sdDecodeEndpoint (subspan b k n) type).2 := by
  have hprobe := @endpointSize_le type
  obtain hother | hfull | hend := hcond
  · rw [sdDecodeEndpoint_other hother, sdDecodeEndpoint_other hother]
  · rw [← subspan_agree hagree (le_refl _), subspan, subspan,
      sdDecodeEndpoint_take (by omega), sdDecodeEndpoint_take hfull]
  · have hc := length_subspan_le c k m
    have hb := length_subspan_le b k n
    rw [sdDecodeEndpoint_short (by omega), sdDecodeEndpoint_short (by omega)]

/-- **When a report is made of the option's own bytes**: the option is no
endpoint, it declares all of an endpoint's bytes, or the region ends before
they do. -/
theorem local_iff (hdr : SomeipHeader) (payload : SegInput) (i : ℕ) (o : SdOption)
    (h : (reportedOptions hdr payload)[i]? = some o) :
    (o.endpoint = (sdDecodeEndpoint (subspan payload.content o.start (3 + o.length)) o.type).2
      ∧ ∀ payload' : SegInput, payload'.content.take (o.start + 3 + o.length)
          = payload.content.take (o.start + 3 + o.length) →
        ∃ o', (reportedOptions hdr payload')[i]? = some o' ∧ o'.start = o.start
          ∧ o'.endpoint = o.endpoint)
    ↔ isEndpoint o.type = false ∨ endpointSize o.type ≤ 3 + o.length
      ∨ regionEnd payload.content < o.start + endpointSize o.type := by
  constructor
  · rintro ⟨-, htwo⟩
    by_contra hnot
    obtain ⟨htype, hrest⟩ := not_or.1 hnot
    have hsame : ∀ x : UInt8, o.endpoint.port % 256 = x.toNat := by
      intro x
      obtain ⟨htake, hport⟩ := reported_completed h (Bool.not_eq_false _ ▸ htype) (by omega)
        (by omega) x
      obtain ⟨o', ho', -, hendpoint⟩ := htwo (.ofParts [completed payload.content o x]) (by
        rw [(Segmented.Rep.ofParts _).bytes]
        show ([completed payload.content o x].flatten).take _ = _
        rw [flatten_singleton, htake])
      rw [← hendpoint]
      exact hport o' ho'
    exact absurd ((hsame 0).symm.trans (hsame 1)) (by decide)
  · intro hcond
    obtain ⟨-, -, hloop⟩ := reported_cases h
    have hfits := (sdOptions_reported (min_le_right _ _) hloop).2.fits
    have hown : ∀ payload' : SegInput, payload'.content.take (o.start + 3 + o.length)
          = payload.content.take (o.start + 3 + o.length) →
        ∃ o', (reportedOptions hdr payload')[i]? = some o' ∧ o'.start = o.start ∧ o'.endpoint
          = (sdDecodeEndpoint (subspan payload.content o.start (3 + o.length)) o.type).2 := by
      intro payload' hagree
      have hlen := congrArg List.length hagree
      rw [length_take, length_take] at hlen
      obtain ⟨o', ho', hstart, -, hendpoint⟩ := reported_agree h hagree
      refine ⟨o', ho', hstart, ?_⟩
      rw [add_assoc] at hagree
      rw [hendpoint]
      refine decode_own hagree (by omega) rfl ?_
      obtain hother | hfull | hend := hcond
      · exact .inl hother
      · exact .inr (.inl hfull)
      · exact .inr (.inr (by omega))
    obtain ⟨o', ho', -, hendpoint⟩ := hown payload rfl
    rw [h, Option.some.injEq] at ho'
    rw [← ho'] at hendpoint
    refine ⟨hendpoint, fun payload' hagree => ?_⟩
    rw [hendpoint]
    exact hown payload' hagree

end Local

/-! ## A short endpoint option -/

/-- No entries, and an IPv4 endpoint option that declares one byte, with
something behind it. -/
def shortOption (optionsLen : UInt8) (behind : Bytes) : SegInput :=
  .ofParts [[0xC0, 0, 0, 0, 0, 0, 0, 0, 0, 0, 0, optionsLen, 0, 1, 4, 0] ++ behind]

theorem reported_alone :
    (reportedOptions ⟨kSomeipSdServiceId, kSomeipSdMethodId⟩ (shortOption 4 []))[0]?
      = some ⟨12, 0, 1, 4, {}⟩ := by
  decide +kernel

theorem local_iff_alone :
    (reportedOptions ⟨kSomeipSdServiceId, kSomeipSdMethodId⟩ (shortOption 4 []))[0]?
        = some ⟨12, 0, 1, 4, {}⟩
      ∧ ∀ payload' : SegInput, payload'.content.take 16 = (shortOption 4 []).content.take 16 →
        ∃ o', (reportedOptions ⟨kSomeipSdServiceId, kSomeipSdMethodId⟩ payload')[0]? = some o'
          ∧ o'.start = 12 ∧ o'.endpoint = ({} : Endpoint) :=
  ⟨reported_alone, ((local_iff _ _ 0 _ reported_alone).2 (.inr (.inr (by decide +kernel)))).2⟩

/-- **The option behind is reported as this one's endpoint**: two payloads
that are the same up to the option's end, and two ports. -/
theorem short_option_reads_on :
    (shortOption 12 [0, 5, 1, 10, 0, 0, 0, 0]).content.take 16
        = (shortOption 12 [0, 5, 1, 10, 0, 0, 0, 1]).content.take 16
      ∧ (reportedOptions ⟨kSomeipSdServiceId, kSomeipSdMethodId⟩
          (shortOption 12 [0, 5, 1, 10, 0, 0, 0, 0]))[0]?
        = some ⟨12, 0, 1, 4, ⟨[0, 5, 1, 10, 0, 0, 0, 0, 0, 0, 0, 0, 0, 0, 0, 0], 0, 0⟩⟩
      ∧ (reportedOptions ⟨kSomeipSdServiceId, kSomeipSdMethodId⟩
          (shortOption 12 [0, 5, 1, 10, 0, 0, 0, 1]))[0]?
        = some ⟨12, 0, 1, 4, ⟨[0, 5, 1, 10, 0, 0, 0, 0, 0, 0, 0, 0, 0, 0, 0, 0], 0, 1⟩⟩ := by
  decide +kernel

end Nanom.Someip
