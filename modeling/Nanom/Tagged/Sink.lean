import Nanom.Wire.Varint

/-!
# Sinks, and what is staged for them

The encoders write to a `byte_sink` through a buffer of 256 bytes: what is
small is staged in it and handed on in blocks, what does not fit goes straight
through. `Stage` is that writer. `Direct` is one without a buffer and without
a sink, which says what there is to write.

`Tracks` relates the two at every point of a run: the blocks that the sink was
given are what `Direct` has, or a prefix of it once the sink has refused one.
`Sim` carries such relations through whatever an encoder does.
-/

namespace Nanom.Tagged

open List Option

variable {a b log : List (Bytes × Bool)} {p : Bytes}

/-- `byte_sink`. -/
class ByteSink (S : Type) where
  put : S → Bytes → S × Bool

structure VectorSink where
  out : Bytes
  deriving DecidableEq

/-- `span_sink`: the bytes it may hold and those it holds. -/
structure SpanSink where
  size : ℕ
  used : Bytes
  deriving DecidableEq

structure CountingSink where
  count : ℕ
  deriving DecidableEq

variable {s : SpanSink}

instance : ByteSink VectorSink where
  put s p := (⟨s.out ++ p⟩, true)

instance : ByteSink SpanSink where
  put s p := if s.size - s.used.length < p.length then (s, false) else (⟨s.size, s.used ++ p⟩, true)

instance : ByteSink CountingSink where
  put s p := (⟨s.count + p.length⟩, true)

/-! ## Writers -/

/-- What an encoder asks of the writer it writes to. -/
class Writer (W : Type) where
  err : W → Option String
  fail : String → W → W
  u8 : UInt8 → W → W
  varint : ℕ → W → W
  fixed : ℕ → Bool → W → W
  raw : Bytes → W → W

/-- The bytes of a `fixed`: eight, or four. -/
def fixedBytes (u : ℕ) (wide : Bool) : Bytes := leBytes (if wide then 8 else 4) u

/-- The size of the staging buffer. -/
def stageSize : ℕ := 256

/-- What `fail` says of a sink. -/
def refusal : String := "the sink refused the bytes (full or failed)"

/-- `writer`: the sink, the bytes handed to it, the first error, and what is
staged. -/
structure Stage (S : Type) where
  sink : S
  total : ℕ
  err : Option String
  buf : Bytes

namespace Stage

variable {S : Type}

def fail (what : String) (w : Stage S) : Stage S :=
  if w.err.isSome then w else { w with err := some what }

variable [ByteSink S]

/-- Bytes handed to the sink; `rest` is what stays staged if it takes them. -/
def put (p rest : Bytes) (w : Stage S) : Stage S :=
  let r := ByteSink.put w.sink p
  if r.2 then { w with sink := r.1, total := w.total + p.length, buf := rest }
  else fail refusal { w with sink := r.1 }

def flush (w : Stage S) : Stage S := if w.err.isSome ∨ w.buf = [] then w else w.put w.buf []

/-- Bytes that are staged, after a `flush` if there is no room. -/
def stage (full : Bool) (p : Bytes) (w : Stage S) : Stage S :=
  let w := if full then w.flush else w
  if w.err.isSome then w else { w with buf := w.buf ++ p }

def u8 (b : UInt8) (w : Stage S) : Stage S := w.stage (w.buf.length = stageSize) [b]

def varint (v : ℕ) (w : Stage S) : Stage S :=
  w.stage (stageSize - w.buf.length < Wire.leb128MaxBytes 64) (Wire.uleb128Encode (u64 v))

def fixed (u : ℕ) (wide : Bool) (w : Stage S) : Stage S :=
  w.stage (stageSize - w.buf.length < 8) (fixedBytes u wide)

def raw (p : Bytes) (w : Stage S) : Stage S :=
  if w.err.isSome ∨ p = [] then w
  else if p.length ≤ stageSize - w.buf.length then { w with buf := w.buf ++ p }
  else
    let w := w.flush
    if w.err.isSome then w else w.put p w.buf

/-- A writer to a sink. -/
def start (s : S) : Stage S := ⟨s, 0, none, []⟩

end Stage

instance {S : Type} [ByteSink S] : Writer (Stage S) where
  err := Stage.err
  fail := Stage.fail
  u8 := Stage.u8
  varint := Stage.varint
  fixed := Stage.fixed
  raw := Stage.raw

/-- **The writer without a buffer**: what is written, and the first error. -/
structure Direct where
  out : Bytes
  err : Option String

/-- Bytes that are written unless something has failed. -/
def Direct.add (p : Bytes) (d : Direct) : Direct := if d.err.isSome then d else ⟨d.out ++ p, none⟩

theorem Direct.add_of_none {d : Direct} (h : d.err = none) (p : Bytes) :
    d.add p = ⟨d.out ++ p, none⟩ := by
  rw [Direct.add, h]
  rfl

instance : Writer Direct where
  err := Direct.err
  fail what d := if d.err.isSome then d else ⟨d.out, some what⟩
  u8 b := Direct.add [b]
  varint v := Direct.add (Wire.uleb128Encode (u64 v))
  fixed u wide := Direct.add (fixedBytes u wide)
  raw p := Direct.add p

/-- A writer that does nothing more once something has failed. -/
class LawfulWriter (W : Type) [Writer W] : Prop where
  stuck_fail : ∀ {w : W} (e : String), (Writer.err w).isSome → Writer.fail e w = w
  stuck_u8 : ∀ {w : W} (b : UInt8), (Writer.err w).isSome → Writer.u8 b w = w
  stuck_varint : ∀ {w : W} (v : ℕ), (Writer.err w).isSome → Writer.varint v w = w
  stuck_fixed : ∀ {w : W} (u : ℕ) (wide : Bool), (Writer.err w).isSome → Writer.fixed u wide w = w
  stuck_raw : ∀ {w : W} (p : Bytes), (Writer.err w).isSome → Writer.raw p w = w

theorem Stage.stage_stuck {S : Type} [ByteSink S] {w : Stage S} (h : w.err.isSome) (full : Bool)
    (p : Bytes) : w.stage full p = w := by
  have hflush : w.flush = w := if_pos (.inl h)
  rw [Stage.stage, hflush, ite_self]
  exact if_pos h

instance {S : Type} [ByteSink S] : LawfulWriter (Stage S) where
  stuck_fail _ h := if_pos h
  stuck_u8 _ h := Stage.stage_stuck h _ _
  stuck_varint _ h := Stage.stage_stuck h _ _
  stuck_fixed _ _ h := Stage.stage_stuck h _ _
  stuck_raw _ h := if_pos (.inl h)

instance : LawfulWriter Direct where
  stuck_fail _ h := if_pos h
  stuck_u8 _ h := if_pos h
  stuck_varint _ h := if_pos h
  stuck_fixed _ _ h := if_pos h
  stuck_raw _ h := if_pos h

/-- **Two writers that keep in step**: what relates them is kept by whatever
both are asked. -/
structure Sim {W V : Type} [Writer W] [Writer V] (R : W → V → Prop) : Prop where
  fail : ∀ {w v} (e : String), R w v → R (Writer.fail e w) (Writer.fail e v)
  u8 : ∀ {w v} (b : UInt8), R w v → R (Writer.u8 b w) (Writer.u8 b v)
  varint : ∀ {w v} (x : ℕ), R w v → R (Writer.varint x w) (Writer.varint x v)
  fixed : ∀ {w v} (u : ℕ) (wide : Bool), R w v → R (Writer.fixed u wide w) (Writer.fixed u wide v)
  raw : ∀ {w v} (p : Bytes), R w v → R (Writer.raw p w) (Writer.raw p v)

/-! ## What a sink was given -/

/-- A sink with a record of the blocks it was given, and its answers. -/
structure Logged (S : Type) where
  sink : S
  log : List (Bytes × Bool)

instance {S : Type} [ByteSink S] : ByteSink (Logged S) where
  put l p := (⟨(ByteSink.put l.sink p).1, l.log ++ [(p, (ByteSink.put l.sink p).2)]⟩,
    (ByteSink.put l.sink p).2)

/-- The blocks, end to end. -/
def blocks (log : List (Bytes × Bool)) : Bytes := (log.map Prod.fst).flatten

@[simp] theorem blocks_append (log : List (Bytes × Bool)) (p : Bytes) (a : Bool) :
    blocks (log ++ [(p, a)]) = blocks log ++ p := by
  rw [blocks, blocks, map_append, flatten_append]
  simp

/-- All blocks were taken. -/
def Taken (log : List (Bytes × Bool)) : Prop := ∀ x ∈ log, x.2 = true

theorem Taken.append (h : Taken log) (p : Bytes) : Taken (log ++ [(p, true)]) := by
  intro x hx
  rcases mem_append.1 hx with hx | hx
  · exact h x hx
  · cases mem_singleton.1 hx
    rfl

/-- **How the staged bytes stand to those there are to write.** -/
inductive Tracks {S : Type} (w : Stage (Logged S)) (d : Direct) : Prop
  /-- All is well: what is not staged was handed on. -/
  | going (hw : w.err = none) (hd : d.err = none) (htaken : Taken w.sink.log)
      (hout : blocks w.sink.log ++ w.buf = d.out) (htotal : w.total = (blocks w.sink.log).length)
      (hroom : w.buf.length ≤ stageSize)
  /-- The encoder has failed. -/
  | failed (e : String) (hw : w.err = some e) (hd : d.err = some e) (htaken : Taken w.sink.log)
      (hout : blocks w.sink.log <+: d.out)
  /-- The sink has refused a block, and was given none since. -/
  | refused (log : List (Bytes × Bool)) (p : Bytes) (hw : w.err = some refusal)
      (hlog : w.sink.log = log ++ [(p, false)]) (htaken : Taken log)
      (hout : blocks w.sink.log <+: d.out)

section Tracks

variable {S : Type} {w : Stage (Logged S)} {d : Direct}

theorem tracks_start (s : S) : Tracks (Stage.start ⟨s, []⟩) ⟨[], none⟩ :=
  .going rfl rfl (fun _ h => nomatch h) rfl rfl (Nat.zero_le _)

theorem isSome_of_eq_some {e : Option String} {x : String} (h : e = some x) : e.isSome := by
  rw [h]
  rfl

/-- Whatever is written after a failure, the blocks stay a prefix of it. -/
theorem Tracks.stuck (h : Tracks w d) (hw : w.err.isSome) (p : Bytes) : Tracks w (d.add p) := by
  cases h with
  | going hw' => rw [hw'] at hw; cases hw
  | failed e hw' hd htaken hout =>
    have hadd : d.add p = d := if_pos (isSome_of_eq_some hd)
    rw [hadd]
    exact .failed e hw' hd htaken hout
  | refused log q hw' hlog htaken hout =>
    refine .refused log q hw' hlog htaken ?_
    rw [Direct.add]
    split
    · exact hout
    · exact hout.trans (prefix_append _ _)

theorem Tracks.of_not_isSome (h : Tracks w d) (hsome : ¬w.err.isSome) :
    w.err = none ∧ d.err = none ∧ Taken w.sink.log ∧ blocks w.sink.log ++ w.buf = d.out ∧
      w.total = (blocks w.sink.log).length ∧ w.buf.length ≤ stageSize := by
  cases h with
  | going hw hd htaken hout htotal hroom => exact ⟨hw, hd, htaken, hout, htotal, hroom⟩
  | failed e hw | refused log p hw => exact absurd (isSome_of_eq_some hw) hsome

theorem Tracks.buffer (h : Tracks w d) (hsome : ¬w.err.isSome)
    (hspace : w.buf.length + p.length ≤ stageSize) :
    Tracks { w with buf := w.buf ++ p } (d.add p) := by
  obtain ⟨hw, hd, htaken, hout, htotal, -⟩ := h.of_not_isSome hsome
  rw [Direct.add_of_none hd]
  refine .going hw rfl htaken ?_ htotal ?_
  · dsimp only
    rw [← append_assoc, hout]
  · rwa [← length_append] at hspace

theorem Tracks.fail (h : Tracks w d) (e : String) : Tracks (w.fail e) (Writer.fail e d) := by
  rw [Stage.fail]
  cases h with
  | going hw hd htaken hout htotal hroom =>
    rw [if_neg (not_isSome_iff_eq_none.2 hw),
      show Writer.fail e d = ⟨d.out, some e⟩ from if_neg (not_isSome_iff_eq_none.2 hd)]
    exact .failed e rfl rfl htaken ⟨w.buf, hout⟩
  | failed e' hw hd htaken hout =>
    rw [if_pos (isSome_of_eq_some hw), show Writer.fail e d = d from if_pos (isSome_of_eq_some hd)]
    exact .failed e' hw hd htaken hout
  | refused log p hw hlog htaken hout =>
    rw [if_pos (isSome_of_eq_some hw)]
    refine .refused log p hw hlog htaken ?_
    change blocks w.sink.log <+: (if d.err.isSome then d else ⟨d.out, some e⟩).out
    split
    · exact hout
    · exact hout

variable [ByteSink S]

/-- A block that is handed on: it is what comes next. -/
theorem Tracks.put {rest : Bytes} (hw : w.err = none) (hd : d.err = none)
    (htaken : Taken w.sink.log) (hout : blocks w.sink.log ++ p ++ rest = d.out)
    (htotal : w.total = (blocks w.sink.log).length) (hroom : rest.length ≤ stageSize) :
    Tracks (w.put p rest) d := by
  rw [Stage.put]
  by_cases hput : (ByteSink.put w.sink.sink p).2 = true
  · have hlog : (ByteSink.put w.sink p).1.log = w.sink.log ++ [(p, true)] := by rw [← hput]; rfl
    rw [if_pos (show (ByteSink.put w.sink p).2 = true from hput)]
    refine .going hw hd ?_ ?_ ?_ hroom
    · rw [hlog]
      exact htaken.append p
    · rw [hlog, blocks_append]
      exact hout
    · rw [hlog, blocks_append, length_append, htotal]
  · have hlog : (ByteSink.put w.sink p).1.log = w.sink.log ++ [(p, false)] := by
      rw [← Bool.eq_false_iff.2 hput]
      rfl
    rw [if_neg (show ¬(ByteSink.put w.sink p).2 = true from hput), Stage.fail,
      if_neg (not_isSome_iff_eq_none.2 hw)]
    refine .refused w.sink.log p rfl hlog htaken ?_
    dsimp only
    rw [hlog, blocks_append, ← hout]
    exact prefix_append _ _

/-- `flush` hands on what is staged. -/
theorem Tracks.flush (h : Tracks w d) : Tracks w.flush d := by
  rw [Stage.flush]
  by_cases hskip : w.err.isSome ∨ w.buf = []
  · rw [if_pos hskip]
    exact h
  obtain ⟨hw, hd, htaken, hout, htotal, -⟩ := h.of_not_isSome fun hsome => hskip (.inl hsome)
  rw [if_neg hskip]
  refine Tracks.put hw hd htaken ?_ htotal (Nat.zero_le _)
  rw [append_nil]
  exact hout

theorem buf_flush (h : w.flush.err = none) : w.flush.buf = [] := by
  rw [Stage.flush] at h ⊢
  by_cases hskip : w.err.isSome ∨ w.buf = []
  · rw [if_pos hskip] at h ⊢
    rcases hskip with hsome | hnil
    · rw [h] at hsome
      cases hsome
    · exact hnil
  rw [if_neg hskip, Stage.put] at h ⊢
  split at h
  · rename_i hput
    rw [if_pos hput]
  rw [Stage.fail] at h
  split at h
  · rename_i hsome
    exact absurd (.inl hsome) hskip
  · cases h

section

variable (h : Tracks w d)
include h

theorem Tracks.stage {full : Bool} (hp : p.length ≤ stageSize)
    (hfull : full = false → w.buf.length + p.length ≤ stageSize) :
    Tracks (w.stage full p) (d.add p) := by
  have hready : Tracks (if full then w.flush else w) d := by
    split
    · exact h.flush
    · exact h
  have hspace : (if full then w.flush else w).err = none →
      (if full then w.flush else w).buf.length + p.length ≤ stageSize := by
    intro herr
    cases full with
    | true =>
      rw [if_pos rfl] at herr ⊢
      rw [buf_flush herr]
      exact le_trans (le_of_eq (zero_add _)) hp
    | false => exact hfull rfl
  rw [Stage.stage]
  generalize (if full then w.flush else w) = w' at hready hspace
  by_cases hsome : w'.err.isSome
  · rw [if_pos hsome]
    exact hready.stuck hsome p
  · rw [if_neg hsome]
    exact hready.buffer hsome (hspace (not_isSome_iff_eq_none.1 hsome))

theorem Tracks.raw (p : Bytes) : Tracks (w.raw p) (d.add p) := by
  have hnil : p = [] → Tracks w (d.add p) := by
    rintro rfl
    have hadd : d.add [] = d := by
      rw [Direct.add]
      split
      · rfl
      · rename_i hnone
        rw [append_nil, ← not_isSome_iff_eq_none.1 hnone]
    rw [hadd]
    exact h
  rw [Stage.raw]
  by_cases hskip : w.err.isSome ∨ p = []
  · rw [if_pos hskip]
    rcases hskip with hsome | hp
    · exact h.stuck hsome p
    · exact hnil hp
  rw [if_neg hskip]
  by_cases hfits : p.length ≤ stageSize - w.buf.length
  · have hsome : ¬w.err.isSome := fun hsome => hskip (.inl hsome)
    obtain ⟨-, -, -, -, -, hroom⟩ := h.of_not_isSome hsome
    rw [if_pos hfits]
    exact h.buffer hsome (by omega)
  rw [if_neg hfits]
  have hflush := h.flush
  have hbuf := buf_flush (w := w)
  generalize w.flush = w' at hflush hbuf
  dsimp only
  by_cases hsome : w'.err.isSome
  · rw [if_pos hsome]
    exact hflush.stuck hsome p
  obtain ⟨hw, hd, htaken, hout, htotal, -⟩ := hflush.of_not_isSome hsome
  rw [if_neg hsome, Direct.add_of_none hd]
  rw [hbuf hw] at hout ⊢
  refine Tracks.put hw rfl htaken ?_ htotal (Nat.zero_le _)
  rw [append_nil] at hout ⊢
  rw [hout]

theorem Tracks.varint (v : ℕ) : Tracks (w.varint v) (d.add (Wire.uleb128Encode (u64 v))) := by
  have hv : u64 v < 2 ^ (7 * 10) :=
    lt_trans (Nat.mod_lt v (by decide)) (Nat.pow_lt_pow_right (by decide) (by decide))
  have hlen := (Wire.length_uleb128Encode (by decide) hv).2
  have hmax : Wire.leb128MaxBytes 64 = 10 := by decide
  have hsize : stageSize = 256 := rfl
  refine h.stage (by omega) ?_
  intro hfull
  have := of_decide_eq_false hfull
  omega

theorem Tracks.fixed (u : ℕ) (wide : Bool) :
    Tracks (w.fixed u wide) (d.add (fixedBytes u wide)) := by
  have hlen : (fixedBytes u wide).length ≤ 8 := by
    rw [fixedBytes, length_leBytes]
    split <;> decide
  have hsize : stageSize = 256 := rfl
  refine h.stage (by omega) ?_
  intro hfull
  have := of_decide_eq_false hfull
  omega

theorem Tracks.u8 (b : UInt8) : Tracks (w.u8 b) (d.add [b]) := by
  by_cases hsome : w.err.isSome
  · rw [Stage.u8, Stage.stage_stuck hsome]
    exact h.stuck hsome [b]
  obtain ⟨-, -, -, -, -, hroom⟩ := h.of_not_isSome hsome
  refine h.stage (Nat.succ_le_succ (Nat.zero_le 255)) ?_
  intro hfull
  have := of_decide_eq_false hfull
  rw [length_singleton]
  omega

end

/-- **The staged writer keeps track of the direct one.** -/
theorem sim_tracks : Sim (Tracks (S := S)) where
  fail e h := h.fail e
  u8 b h := h.u8 b
  varint x h := h.varint x
  fixed u wide h := h.fixed u wide
  raw p h := h.raw p

end Tracks

/-! ## Keeping a record -/

/-- The sink and the record that a run of `put`s leads to. -/
inductive Replay {S : Type} [ByteSink S] (s₀ : S) : Logged S → Prop
  | start : Replay s₀ ⟨s₀, []⟩
  | put {l : Logged S} (p : Bytes) (h : Replay s₀ l) : Replay s₀ (ByteSink.put l p).1

/-- A writer whose sink keeps a record, and one whose sink does not. -/
structure Recorded {S : Type} [ByteSink S] (s₀ : S) (w : Stage S) (l : Stage (Logged S)) :
    Prop where
  sink : l.sink.sink = w.sink
  total : l.total = w.total
  err : l.err = w.err
  buf : l.buf = w.buf
  replay : Replay s₀ l.sink

section Recorded

variable {S : Type} [ByteSink S] {s₀ : S} {w : Stage S} {l : Stage (Logged S)}

section

variable (h : Recorded s₀ w l)
include h

theorem Recorded.fail (e : String) : Recorded s₀ (w.fail e) (l.fail e) := by
  rw [Stage.fail, Stage.fail, h.err]
  split
  · exact h
  · exact ⟨h.sink, h.total, rfl, h.buf, h.replay⟩

theorem Recorded.put (p rest : Bytes) : Recorded s₀ (w.put p rest) (l.put p rest) := by
  have hput : ByteSink.put l.sink p = (⟨(ByteSink.put w.sink p).1,
      l.sink.log ++ [(p, (ByteSink.put w.sink p).2)]⟩, (ByteSink.put w.sink p).2) := by
    rw [← h.sink]
    rfl
  have hreplay := h.replay.put p
  rw [hput] at hreplay
  rw [Stage.put, Stage.put, hput]
  dsimp only
  by_cases htaken : (ByteSink.put w.sink p).2 = true
  · rw [if_pos htaken, if_pos htaken]
    exact ⟨rfl, by rw [h.total], h.err, rfl, hreplay⟩
  · rw [if_neg htaken, if_neg htaken]
    refine Recorded.fail ?_ refusal
    exact ⟨rfl, h.total, h.err, h.buf, hreplay⟩

theorem Recorded.flush : Recorded s₀ w.flush l.flush := by
  rw [Stage.flush, Stage.flush, h.err, h.buf]
  split
  · exact h
  · exact h.put _ _

theorem Recorded.stage (full : Bool) (p : Bytes) :
    Recorded s₀ (w.stage full p) (l.stage full p) := by
  have hready : Recorded s₀ (if full then w.flush else w) (if full then l.flush else l) := by
    split
    · exact h.flush
    · exact h
  rw [Stage.stage, Stage.stage]
  generalize (if full then w.flush else w) = w' at hready
  generalize (if full then l.flush else l) = l' at hready
  rw [hready.err]
  split
  · exact hready
  · exact ⟨hready.sink, hready.total, rfl, by rw [hready.buf], hready.replay⟩

theorem Recorded.staged (full : Bytes → Bool) (p : Bytes) :
    Recorded s₀ (w.stage (full w.buf) p) (l.stage (full l.buf) p) := by
  rw [h.buf]
  exact h.stage _ p

theorem Recorded.raw (p : Bytes) : Recorded s₀ (w.raw p) (l.raw p) := by
  rw [Stage.raw, Stage.raw, h.err, h.buf]
  split
  · exact h
  split
  · exact ⟨h.sink, h.total, rfl, rfl, h.replay⟩
  have hflush := h.flush
  dsimp only
  rw [hflush.err]
  split
  · exact hflush
  · rw [hflush.buf]
    exact hflush.put _ _

end

theorem sim_recorded : Sim (Recorded s₀) where
  fail e h := h.fail e
  u8 b h := h.staged (·.length = stageSize) [b]
  varint x h :=
    h.staged (stageSize - ·.length < Wire.leb128MaxBytes 64) (Wire.uleb128Encode (u64 x))
  fixed u wide h := h.staged (stageSize - ·.length < 8) (fixedBytes u wide)
  raw p h := h.raw p

theorem recorded_start (s : S) : Recorded s (Stage.start s) (Stage.start ⟨s, []⟩) :=
  ⟨rfl, rfl, rfl, rfl, .start⟩

end Recorded

/-! ## What comes of it -/

/-- **What a sink was given** when the encoder is done: all there is to
write if nothing failed, a part of it otherwise, and nothing after it
refused a block. -/
structure Given {S : Type} [ByteSink S] (s₀ : S) (d : Direct) (w : Stage S) (l : Logged S) :
    Prop where
  sink : l.sink = w.sink
  replay : Replay s₀ l
  done : w.err = none → d.err = none ∧ Taken l.log ∧ blocks l.log = d.out ∧ w.total = d.out.length
  part : blocks l.log <+: d.out
  stopped : ∀ a p b, l.log = a ++ (p, false) :: b → b = []
  taken : Taken l.log → w.err = d.err
  refused : ∀ log p, l.log = log ++ [(p, false)] → Taken log

section Given

variable {S : Type} [ByteSink S] {s₀ : S} {w : Stage S} {l : Stage (Logged S)} {d : Direct}

theorem Taken.not_mem (h : Taken log) (hlog : log = a ++ (p, false) :: b) : False := by
  have hp := h (p, false) (by rw [hlog]; exact mem_append_right a mem_cons_self)
  cases hp

theorem Taken.split {q : Bytes} (h : Taken log)
    (heq : log ++ [(q, false)] = a ++ (p, false) :: b) : b = [] ∧ log = a := by
  rcases eq_nil_or_concat b with rfl | ⟨b', x, rfl⟩
  · exact ⟨rfl, (append_inj' heq rfl).1⟩
  · have hlog : log = a ++ (p, false) :: b' := by
      rw [concat_eq_append, ← cons_append, ← append_assoc] at heq
      exact (append_inj' heq rfl).1
    exact absurd hlog fun hlog => h.not_mem hlog

/-- **The last `flush`**, and what the sink has then. -/
theorem given_of_tracks (hrec : Recorded s₀ w l) (h : Tracks l d) :
    Given s₀ d w.flush l.flush.sink := by
  have hbuf := buf_flush (w := l)
  have hrec := hrec.flush
  have h := h.flush
  generalize l.flush = l' at hbuf hrec h
  generalize w.flush = w' at hrec
  refine ⟨hrec.sink, hrec.replay, ?_, ?_, ?_, ?_, ?_⟩
  · intro hok
    rw [← hrec.err] at hok
    obtain ⟨-, hd, htaken, hout, htotal, -⟩ := h.of_not_isSome (not_isSome_iff_eq_none.2 hok)
    rw [hbuf hok, append_nil] at hout
    exact ⟨hd, htaken, hout, by rw [← hrec.total, htotal, hout]⟩
  · cases h with
    | going hw hd htaken hout => exact ⟨_, hout⟩
    | failed e hw hd htaken hout | refused log p hw hlog htaken hout => exact hout
  · intro a p b hlog
    cases h with
    | going hw hd htaken | failed e hw hd htaken => exact (htaken.not_mem hlog).elim
    | refused log q hw hlog' htaken => exact (htaken.split (hlog' ▸ hlog)).1
  · intro htaken
    rw [← hrec.err]
    cases h with
    | going hw hd | failed e hw hd => rw [hw, hd]
    | refused log p hw hlog => exact (htaken.not_mem hlog).elim
  · intro log p hlog
    cases h with
    | going hw hd htaken | failed e hw hd htaken => exact (htaken.not_mem hlog).elim
    | refused log' q hw hlog' htaken =>
      have heq : log' ++ [(q, false)] = log ++ [(p, false)] := hlog'.symm.trans hlog
      exact (htaken.split heq).2 ▸ htaken

end Given

section Sinks

/-- A sink that never refuses has taken all it was given. -/
theorem Replay.free {S : Type} [ByteSink S]
    (hfree : ∀ (s : S) (p : Bytes), (ByteSink.put s p).2 = true) {s : S} {l : Logged S}
    (h : Replay s l) : Taken l.log := by
  induction h with
  | start => exact fun x hx => nomatch hx
  | @put l p h ih =>
    change Taken (l.log ++ [(p, (ByteSink.put l.sink p).2)])
    rw [hfree]
    exact ih.append p

theorem Replay.vector {s : VectorSink} {l : Logged VectorSink} (h : Replay s l) :
    l.sink = ⟨s.out ++ blocks l.log⟩ ∧ Taken l.log := by
  refine ⟨?_, h.free fun _ _ => rfl⟩
  induction h with
  | start => rw [show blocks [] = [] from rfl, append_nil]
  | put p h ih =>
    change (⟨_ ++ p⟩ : VectorSink) = ⟨s.out ++ blocks (_ ++ [(p, true)])⟩
    rw [ih, blocks_append, append_assoc]

theorem SpanSink.put_of_le (h : p.length ≤ s.size - s.used.length) :
    ByteSink.put s p = (⟨s.size, s.used ++ p⟩, true) := if_neg (not_lt.2 h)

theorem SpanSink.put_fst (h : p.length ≤ s.size - s.used.length) :
    (ByteSink.put s p).1 = ⟨s.size, s.used ++ p⟩ := by rw [put_of_le h]

theorem SpanSink.put_taken : (ByteSink.put s p).2 = true ↔ p.length ≤ s.size - s.used.length := by
  refine ⟨fun h => ?_, fun h => by rw [put_of_le h]⟩
  by_contra hlt
  rw [show ByteSink.put s p = (s, false) from if_pos (not_le.1 hlt)] at h
  cases h

theorem Replay.span {l : Logged SpanSink} (h : Replay s l) (ht : Taken l.log) :
    l.sink = ⟨s.size, s.used ++ blocks l.log⟩ ∧ (blocks l.log).length ≤ s.size - s.used.length := by
  induction h with
  | start =>
    refine ⟨?_, Nat.zero_le _⟩
    rw [show blocks [] = [] from rfl, append_nil]
  | @put l p h ih =>
    obtain ⟨hsink, hlen⟩ := ih fun x hx => ht x (mem_append_left _ hx)
    have hroom := SpanSink.put_taken.1
      (ht _ (mem_append_right l.log (mem_singleton_self _)))
    have hput := SpanSink.put_fst hroom
    change (ByteSink.put l.sink p).1 = ⟨s.size, s.used ++ blocks (l.log ++ [(p, _)])⟩ ∧
      (blocks (l.log ++ [(p, _)])).length ≤ _
    rw [hsink, length_append] at hroom
    rw [hput, hsink, blocks_append, append_assoc, length_append]
    refine ⟨rfl, ?_⟩
    dsimp only at hroom
    omega

theorem Replay.span_refused {l : Logged SpanSink} (h : Replay s l)
    (hlog : l.log = log ++ [(p, false)]) (ht : Taken log) :
    s.size - s.used.length < (blocks l.log).length := by
  cases h with
  | start => exact absurd hlog.symm (append_ne_nil_of_right_ne_nil _ (cons_ne_nil _ _))
  | @put l q h =>
    change l.log ++ [(q, (ByteSink.put l.sink q).2)] = log ++ [(p, false)] at hlog
    obtain ⟨rfl, hlast⟩ := append_inj' hlog rfl
    have hfalse : (ByteSink.put l.sink q).2 = false := (Prod.mk.inj (singleton_inj.1 hlast)).2
    have hroom : ¬q.length ≤ l.sink.size - l.sink.used.length := fun hle => by
      rw [SpanSink.put_taken.2 hle] at hfalse
      cases hfalse
    obtain ⟨hsink, -⟩ := h.span ht
    change _ < (blocks (l.log ++ [(q, _)])).length
    rw [hsink, length_append] at hroom
    rw [blocks_append, length_append]
    dsimp only at hroom
    omega

end Sinks

end Nanom.Tagged
