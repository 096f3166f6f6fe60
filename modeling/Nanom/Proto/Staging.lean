import Nanom.Proto.Encoding

/-!
# Both encoders — what is staged and what a sink gets

The Thrift and the protobuf encoder write through the same kind of buffer.
`Staged` says what that means for the sink: it is given the bytes of the unstaged
encoding in order, all of them if the call succeeds, and nothing after it has
refused a block. The blocks are those that a sink with a record (`Logged`) was
given.
-/

namespace Nanom.Proto

open List

open Nanom.Tagged (ByteSink CountingSink Direct EncodeError Given Logged Recorded Replay SpanSink
  Stage Taken blocks recorded_start sim_recorded thriftCompactEncode thriftCompactSize)

/-- **Staged writing is unstaged writing**, where `d` is what there is to
write. -/
structure Staged (encode : (S : Type) → [ByteSink S] → S → S × Except EncodeError ℕ)
    (d : Direct) : Prop where
  record : ∀ (S : Type) [ByteSink S] (s : S) (t : ℕ),
    (encode (Logged S) ⟨s, []⟩).1.sink = (encode S s).1 ∧
      ((encode (Logged S) ⟨s, []⟩).2 = .ok t ↔ (encode S s).2 = .ok t)
  all : ∀ (S : Type) [ByteSink S] (s : S) (t : ℕ), (encode S s).2 = .ok t →
    d.err = none ∧ blocks (encode (Logged S) ⟨s, []⟩).1.log = d.out ∧ t = d.out.length
  part : ∀ (S : Type) [ByteSink S] (s : S), blocks (encode (Logged S) ⟨s, []⟩).1.log <+: d.out
  stopped : ∀ (S : Type) [ByteSink S] (s : S) a p b,
    (encode (Logged S) ⟨s, []⟩).1.log = a ++ (p, false) :: b → b = []
  span : ∀ s : SpanSink, (∃ t, (encode SpanSink s).2 = .ok t) ↔
    d.err = none ∧ d.out.length ≤ s.size - s.used.length

/-- An encoder that ends with a flushed writer. -/
structure Runs (encode : (S : Type) → [ByteSink S] → S → S × Except EncodeError ℕ)
    (run : (S : Type) → [ByteSink S] → S → Stage S) (d : Direct) : Prop where
  sink : ∀ (S : Type) [ByteSink S] (s : S), (encode S s).1 = (run S s).sink
  ok : ∀ (S : Type) [ByteSink S] (s : S) (t : ℕ),
    (encode S s).2 = .ok t ↔ (run S s).err = none ∧ (run S s).total = t
  recorded : ∀ (S : Type) [ByteSink S] (s : S), Recorded s (run S s) (run (Logged S) ⟨s, []⟩)
  given : ∀ (S : Type) [ByteSink S] (s : S), Given s d (run S s) (run (Logged S) ⟨s, []⟩).sink

section Runs

variable {encode : (S : Type) → [ByteSink S] → S → S × Except EncodeError ℕ}
  {run : (S : Type) → [ByteSink S] → S → Stage S} {d : Direct}

theorem Runs.span (h : Runs encode run d) (s : SpanSink) :
    (run SpanSink s).err = none ↔ d.err = none ∧ d.out.length ≤ s.size - s.used.length := by
  have hgiven := h.given SpanSink s
  constructor
  · intro herr
    obtain ⟨hd, htaken, hblocks, -⟩ := hgiven.done herr
    refine ⟨hd, ?_⟩
    rw [← hblocks]
    exact (hgiven.replay.span htaken).2
  · rintro ⟨hd, hroom⟩
    by_cases htaken : Taken (run (Logged SpanSink) ⟨s, []⟩).sink.log
    · rw [hgiven.taken htaken, hd]
    -- a block was refused, which is longer than the room there is for all of them
    obtain ⟨x, hx, hfalse⟩ : ∃ x ∈ (run (Logged SpanSink) ⟨s, []⟩).sink.log, ¬x.2 = true := by
      by_contra hall
      exact htaken fun x hx => not_not.1 fun hne => hall ⟨x, hx, hne⟩
    obtain ⟨a, b, hlog⟩ := append_of_mem hx
    have hpair : x = (x.1, false) := by rw [← Bool.eq_false_iff.2 hfalse]
    rw [hpair] at hlog
    obtain rfl := hgiven.stopped a x.1 b hlog
    have hover := hgiven.replay.span_refused hlog (hgiven.refused a x.1 hlog)
    have hle := hgiven.part.length_le
    omega

theorem Runs.staged (h : Runs encode run d) : Staged encode d where
  record S _ s t := by
    have hrec := h.recorded S s
    refine ⟨?_, ?_⟩
    · rw [h.sink, h.sink]
      exact hrec.sink
    · rw [h.ok, h.ok, hrec.err, hrec.total]
  all S _ s t hok := by
    obtain ⟨herr, htotal⟩ := (h.ok S s t).1 hok
    obtain ⟨hd, -, hblocks, hlen⟩ := (h.given S s).done herr
    rw [h.sink]
    exact ⟨hd, hblocks, htotal.symm.trans hlen⟩
  part S _ s := by
    rw [h.sink]
    exact (h.given S s).part
  stopped S _ s := by
    rw [h.sink]
    exact (h.given S s).stopped
  span s := by
    rw [← h.span s]
    simp only [h.ok]
    exact ⟨fun ⟨_, herr, _⟩ => herr, fun herr => ⟨_, herr, rfl⟩⟩

end Runs

/-! ## Thrift -/

section Thrift

variable {n : ℕ} (h : Tagged.Head n) (types : Fin n → Tagged.Ty)
  (m : Tagged.Record h fun k => (types k).Value)

theorem thriftCompactEncode_ok {S : Type} [ByteSink S] (s : S) (t : ℕ) :
    (thriftCompactEncode h types m s).2 = .ok t ↔
      (Tagged.writeTo h types m (Stage.start s)).w.flush.err = none ∧
        (Tagged.writeTo h types m (Stage.start s)).w.flush.total = t := by
  rw [thriftCompactEncode]
  split
  · rename_i e herr
    simp [herr]
  · rename_i herr
    simp [herr]

theorem thrift_runs : Runs (fun _ _ s => thriftCompactEncode h types m s)
    (fun _ _ s => (Tagged.writeTo h types m (Stage.start s)).w.flush)
    (Tagged.encoding h types m) where
  sink _ _ _ := rfl
  ok _ _ s t := thriftCompactEncode_ok h types m s t
  recorded _ _ s := (Tagged.writeTo_sim h types m sim_recorded (recorded_start s)).flush
  given _ _ s := Tagged.given_encode h types m s

theorem thriftCompactSize_eq_ok (c : ℕ) : thriftCompactSize h types m = .ok c ↔
    (Tagged.encoding h types m).err = none ∧ c = (Tagged.encoding h types m).out.length := by
  have hgiven := Tagged.given_encode h types m (⟨0⟩ : CountingSink)
  have herr := hgiven.taken (hgiven.replay.free fun _ _ => rfl)
  rw [thriftCompactSize, thriftCompactEncode_ok]
  constructor
  · rintro ⟨hnone, htotal⟩
    obtain ⟨hd, -, -, hlen⟩ := hgiven.done hnone
    exact ⟨hd, htotal.symm.trans hlen⟩
  · rintro ⟨hd, rfl⟩
    rw [hd] at herr
    exact ⟨herr, (hgiven.done herr).2.2.2⟩

end Thrift

/-! ## Protobuf -/

section Protobuf

variable {n : ℕ} (h : Head n) (types : Fin n → Ty) (m : Fields h types)

/-- What there is to write: nothing if the first pass has failed. -/
def unstaged : Direct :=
  match firstPass h types m with
  | .error e => ⟨[], some e.what⟩
  | .ok sizes => encoding h types sizes m

/-- The writer in the end: it has done nothing if the first pass has
failed. -/
def finalStage {S : Type} [ByteSink S] (s : S) : Stage S :=
  match firstPass h types m with
  | .error e => { Stage.start s with err := some e.what }
  | .ok sizes => (writeTo h types sizes m (Stage.start s)).w.flush

theorem protobuf_runs : Runs (fun _ _ s => protobufEncode h types m s)
    (fun _ _ s => finalStage h types m s) (unstaged h types m) := by
  cases hpass : firstPass h types m with
  | error e =>
    simp only [protobufEncode, finalStage, unstaged, hpass]
    refine ⟨fun _ _ _ => rfl, fun _ _ s t => ?_, fun _ _ s => ?_, fun _ _ s => ?_⟩
    · exact ⟨fun hok => (by cases hok), fun herr => (by cases herr.1)⟩
    · exact ⟨rfl, rfl, rfl, rfl, .start⟩
    · exact ⟨rfl, .start, fun herr => (by cases herr), nil_prefix,
        fun a p b hlog => absurd hlog.symm (append_ne_nil_of_right_ne_nil _
          (cons_ne_nil _ _)), fun _ => rfl,
        fun a p hlog => absurd hlog.symm (append_ne_nil_of_right_ne_nil _ (cons_ne_nil _ _))⟩
  | ok sizes =>
    simp only [protobufEncode, finalStage, unstaged, hpass]
    refine ⟨fun _ _ _ => rfl, fun _ _ s t => ?_, fun _ _ s => ?_, fun _ _ s => ?_⟩
    · rw [secondPass]
      split
      · rename_i e herr
        simp [herr]
      · rename_i herr
        simp [herr]
    · exact (writeTo_sim h types sizes m sim_recorded (recorded_start s)).flush
    · exact given_encode h types sizes m s

end Protobuf

/-- **Staged writing is unstaged writing, for both encoders**, and
`thrift_compact_size` is the length of it. -/
theorem encoders_are_staged :
    (∀ {n : ℕ} (h : Tagged.Head n) (types : Fin n → Tagged.Ty)
      (m : Tagged.Record h fun k => (types k).Value),
      Staged (fun _ _ s => thriftCompactEncode h types m s) (Tagged.encoding h types m) ∧
        ∀ c, thriftCompactSize h types m = .ok c ↔ (Tagged.encoding h types m).err = none ∧
          c = (Tagged.encoding h types m).out.length) ∧
    ∀ {n : ℕ} (h : Head n) (types : Fin n → Ty) (m : Fields h types),
      Staged (fun _ _ s => protobufEncode h types m s) (unstaged h types m) :=
  ⟨fun h types m => ⟨(thrift_runs h types m).staged, thriftCompactSize_eq_ok h types m⟩,
    fun h types m => (protobuf_runs h types m).staged⟩

end Nanom.Proto
