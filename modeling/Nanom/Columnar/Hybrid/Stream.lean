import Nanom.Columnar.Hybrid.Model

/-!
# Columnar pages — the decoder gives one stream of values

`stream` is all that a decoder has still to give: what is left of the run it is
in, then the runs of the bytes behind it, and whether the end is a clean one.
Every reader takes a piece off the front and leaves a decoder with the rest
(`Delivers`), and comes back short only where nothing is left (`one_stream`).
-/

namespace Nanom.Columnar.RleBpDecoder

open Loop List

variable {c : Taken} {k : ℕ}
variable {d d' d'' : RleBpDecoder} {n : ℕ}

/-! ## Run headers -/

/-- What every reader relies on: the packed values left are in the run's
bytes. -/
structure Fits (d : RleBpDecoder) : Prop where
  width_le : d.width ≤ 32
  bp_le : (d.bpPos + d.bpLeft) * d.width ≤ 8 * d.bp.length

theorem Fits.advance (hd : d.Fits) (hk : k ≤ d.bpLeft) : (d.advance k).Fits := by
  have hbp := hd.bp_le
  refine ⟨hd.width_le, ?_⟩
  show (d.bpPos + k + (d.bpLeft - k)) * d.width ≤ 8 * d.bp.length
  rw [add_assoc, Nat.add_sub_cancel' hk]
  exact hbp

/-- What `next_run()` comes to. -/
inductive NextRun (d : RleBpDecoder) : RleBpDecoder × Bool → Prop
  /-- There are no bytes left. -/
  | ended : d.p = [] → NextRun d (d, false)
  /-- The header or its value is malformed. -/
  | malformed {d' : RleBpDecoder} : d'.ok = false → (d.Fits → d'.Fits) → d'.width = d.width →
      NextRun d (d', false)
  /-- There is a run. -/
  | run {d' : RleBpDecoder} : d'.ok = d.ok → (d.Fits → d'.Fits) → d'.width = d.width →
      d'.p.length < d.p.length → NextRun d (d', true)

theorem packedRun_fits (h : ℕ) (hd : d.Fits) : (d.packedRun h).Fits := by
  refine ⟨hd.width_le, ?_⟩
  rw [packedRun]
  dsimp only
  rw [length_take, zero_add]
  split
  · generalize u64 (if d.p.length < h >>> 1 then d.p.length * d.width else h >>> 1 * d.width) = want
    have hmod : u64 (min want d.p.length * 8) ≤ min want d.p.length * 8 := Nat.mod_le _ _
    calc min (u64 (h >>> 1 * 8)) (u64 (min want d.p.length * 8) / d.width) * d.width
        ≤ u64 (min want d.p.length * 8) / d.width * d.width :=
          Nat.mul_le_mul_right _ (min_le_right _ _)
      _ ≤ u64 (min want d.p.length * 8) := Nat.div_mul_le_self _ _
      _ ≤ 8 * min (min want d.p.length) d.p.length := by omega
  · rename_i hw
    rw [not_not.1 hw]
    exact Nat.zero_le _

theorem nextRun_cases (d : RleBpDecoder) : NextRun d (nextRun d) := by
  rw [nextRun]
  split
  · exact .ended ‹_›
  rcases hread : Wire.varintU64 d.p with e | ⟨h, used⟩
  · exact .malformed rfl (fun hd => ⟨hd.width_le, hd.bp_le⟩) rfl
  have hused := Wire.readUleb128_used (by decide) hread
  have hlen : (d.p.drop used).length < d.p.length := by rw [length_drop]; omega
  dsimp only
  split
  · refine .run rfl (fun hd => packedRun_fits h ⟨hd.width_le, hd.bp_le⟩) rfl ?_
    rw [packedRun, length_drop]
    exact lt_of_le_of_lt (Nat.sub_le _ _) hlen
  rw [rleRun]
  split
  · exact .malformed rfl (fun hd => ⟨hd.width_le, hd.bp_le⟩) rfl
  split
  · exact .malformed rfl (fun hd => ⟨hd.width_le, hd.bp_le⟩) rfl
  · refine .run rfl (fun hd => ⟨hd.width_le, hd.bp_le⟩) rfl ?_
    rw [length_drop]
    exact lt_of_le_of_lt (Nat.sub_le _ _) hlen

theorem nextRun_lt (h : (nextRun d).2 = true) : (nextRun d).1.p.length < d.p.length := by
  have hcases := nextRun_cases d
  generalize nextRun d = r at hcases h ⊢
  cases hcases with
  | ended _ | malformed _ _ _ => cases h
  | run _ _ _ hlt => exact hlt

/-! ## The stream -/

/-- The values left of the run. -/
def pending (d : RleBpDecoder) : List ℕ :=
  List.replicate d.rleLeft d.rleValue ++ valuesFrom d.bp d.width d.bpPos d.bpLeft

/-- A decoder between two runs. -/
def between (width : ℕ) (p : Bytes) : RleBpDecoder := { p, width, ok := true }

/-- The values of the runs that bytes hold, and whether they end without
an error. -/
def runs (width : ℕ) (p : Bytes) : List ℕ × Bool :=
  if _h : (nextRun (between width p)).2 = true then
    ((nextRun (between width p)).1.pending ++ (runs width (nextRun (between width p)).1.p).1,
      (runs width (nextRun (between width p)).1.p).2)
  else ([], (nextRun (between width p)).1.ok)
termination_by p.length
decreasing_by all_goals exact nextRun_lt _h

/-- **The values a decoder has still to give**, and whether they end
without an error. -/
def stream (d : RleBpDecoder) : List ℕ × Bool :=
  if d.ok then (d.pending ++ (runs d.width d.p).1, (runs d.width d.p).2) else ([], false)

theorem stream_of_ok (h : d.ok = true) :
    stream d = (d.pending ++ (runs d.width d.p).1, (runs d.width d.p).2) := if_pos h

theorem stream_of_not_ok (h : d.ok = false) : stream d = ([], false) := if_neg (by rw [h]; decide)

theorem nextRun_between (hok : d.ok = true) (hrle : d.rleLeft = 0) (hbp : d.bpLeft = 0) :
    (nextRun d).2 = (nextRun (between d.width d.p)).2 ∧
      (nextRun d).1.ok = (nextRun (between d.width d.p)).1.ok ∧
      (nextRun d).1.p = (nextRun (between d.width d.p)).1.p ∧
      (nextRun d).1.pending = (nextRun (between d.width d.p)).1.pending := by
  obtain ⟨p, width, ok, rleValue, rleLeft, bp, bpPos, bpLeft⟩ := d
  subst hok hrle hbp
  unfold nextRun between
  by_cases hp : p = []
  · rw [if_pos hp, if_pos hp]
    exact ⟨rfl, rfl, rfl, rfl⟩
  rw [if_neg hp, if_neg hp]
  rcases Wire.varintU64 p with e | ⟨h, used⟩
  · exact ⟨rfl, rfl, rfl, rfl⟩
  dsimp only
  by_cases hodd : h &&& 1 ≠ 0
  · rw [if_pos hodd, if_pos hodd]
    exact ⟨rfl, rfl, rfl, rfl⟩
  rw [if_neg hodd, if_neg hodd]
  unfold rleRun
  by_cases hshort : (p.drop used).length < (width + 7) / 8
  · rw [if_pos hshort, if_pos hshort]
    exact ⟨rfl, rfl, rfl, rfl⟩
  rw [if_neg hshort, if_neg hshort]
  by_cases hwide : width < 32 ∧ leNat ((p.drop used).take ((width + 7) / 8)) >>> width ≠ 0
  · rw [if_pos hwide, if_pos hwide]
    exact ⟨rfl, rfl, rfl, rfl⟩
  rw [if_neg hwide, if_neg hwide]
  exact ⟨rfl, rfl, rfl, rfl⟩

theorem stream_nextRun (hok : d.ok = true) (hrle : d.rleLeft = 0) (hbp : d.bpLeft = 0) :
    stream d = stream (nextRun d).1 ∧
      ((nextRun d).2 = false → stream (nextRun d).1 = ([], (nextRun d).1.ok)) := by
  have hnone : d.pending = [] := by rw [pending, hrle, hbp]; rfl
  obtain ⟨hmore, hok', hp, hpending⟩ := nextRun_between hok hrle hbp
  have hruns := runs.eq_def d.width d.p
  rw [← hmore, ← hok', ← hp, ← hpending] at hruns
  have hstream := stream_of_ok hok
  rw [hnone, nil_append] at hstream
  have hcases := nextRun_cases d
  generalize nextRun d = r at hcases hruns ⊢
  cases hcases with
  | ended _ =>
    rw [hruns] at hstream
    exact ⟨rfl, fun _ => hstream⟩
  | malformed hbad _ _ =>
    rw [stream_of_not_ok hbad, hstream, hruns, hbad]
    exact ⟨rfl, fun _ => rfl⟩
  | @run d' hsame _ hwidth _ =>
    rw [dif_pos rfl] at hruns
    refine ⟨?_, fun h => absurd h.symm Bool.false_ne_true⟩
    rw [stream_of_ok (hsame.trans hok), hwidth, hstream, hruns]

/-- **A piece off the front**, and a decoder with the rest. -/
structure Delivers (d : RleBpDecoder) (piece : List ℕ) (d' : RleBpDecoder) : Prop where
  fits : d'.Fits
  width : d'.width = d.width
  stream : stream d = (piece ++ (stream d').1, (stream d').2)

/-- Nothing is left, and whether that is an error is known. -/
def Ended (d : RleBpDecoder) : Prop := stream d = ([], d.ok)

theorem ended_of_not_ok (h : d.ok ≠ true) : d.Ended := by
  have hbad := Bool.eq_false_of_not_eq_true h
  rw [Ended, stream_of_not_ok hbad, hbad]

namespace Delivers

theorem refl (h : d.Fits) : Delivers d [] d := ⟨h, rfl, rfl⟩

theorem trans {a b : List ℕ} (h : Delivers d a d') (h' : Delivers d' b d'') :
    Delivers d (a ++ b) d'' := by
  refine ⟨h'.fits, h'.width.trans h.width, ?_⟩
  rw [h.stream, h'.stream, append_assoc]

end Delivers

section

variable (hd : d.Fits) (hok : d.ok = true)
include hd hok

theorem delivers_rle (hk : k ≤ d.rleLeft) :
    Delivers d (List.replicate k d.rleValue) { d with rleLeft := d.rleLeft - k } := by
  refine ⟨⟨hd.width_le, hd.bp_le⟩, rfl, ?_⟩
  have hsplit : replicate d.rleLeft d.rleValue
      = replicate k d.rleValue ++ replicate (d.rleLeft - k) d.rleValue := by
    rw [replicate_append_replicate, Nat.add_sub_cancel' hk]
  rw [stream_of_ok hok, stream_of_ok (d := { d with rleLeft := d.rleLeft - k }) hok, pending,
    hsplit, append_assoc, append_assoc, pending, append_assoc]

theorem delivers_packed (hrle : d.rleLeft = 0) (hk : k ≤ d.bpLeft) :
    Delivers d (valuesFrom d.bp d.width d.bpPos k) (d.advance k) := by
  refine ⟨hd.advance hk, rfl, ?_⟩
  have hsplit := valuesFrom_add d.bp d.width d.bpPos k (d.bpLeft - k)
  rw [Nat.add_sub_cancel' hk] at hsplit
  rw [stream_of_ok hok, stream_of_ok (d := d.advance k) hok, pending, hrle, hsplit, pending,
    show (d.advance k).rleLeft = 0 from hrle, replicate_zero, nil_append, append_assoc]
  rfl

theorem delivers_nextRun (hrle : d.rleLeft = 0) (hbp : d.bpLeft = 0) :
    Delivers d [] (nextRun d).1 ∧ ((nextRun d).2 = false → (nextRun d).1.Ended) := by
  obtain ⟨hstream, hend⟩ := stream_nextRun hok hrle hbp
  have hcases := nextRun_cases d
  generalize nextRun d = r at hcases hstream hend ⊢
  refine ⟨?_, hend⟩
  cases hcases with
  | ended _ => exact .refl hd
  | malformed _ hfits hwidth | run _ hfits hwidth _ => exact ⟨hfits hd, hwidth, hstream⟩

end

/-! ## The readers -/

/-- The values of a packed run, from its start or from within a group. -/
theorem valuesFrom_group (d : RleBpDecoder) (m : ℕ) :
    valuesFrom (d.bp.drop (d.bpPos / 8 * d.width)) d.width (d.bpPos % 8) m
      = valuesFrom d.bp d.width d.bpPos m := by
  have hpos : 8 * (d.bpPos / 8) + d.bpPos % 8 = d.bpPos := Nat.div_add_mod _ 8
  have hdrop := valuesFrom_drop d.bp d.width (d.bpPos / 8) (d.bpPos % 8 + m)
  rw [valuesFrom_add, valuesFrom_add, hpos, zero_add] at hdrop
  exact (append_inj hdrop (by rw [length_valuesFrom, length_valuesFrom])).2

theorem takeGroup_spec (hd : c.d.Fits) (hlt : c.out.length < n) (hleft : c.d.bpLeft ≠ 0) :
    ∃ k, 0 < k ∧ k ≤ n - c.out.length ∧ k ≤ c.d.bpLeft ∧
      takeGroup n c = .ok ⟨c.out ++ valuesFrom c.d.bp c.d.width c.d.bpPos k, c.d.advance k⟩ := by
  have hw := hd.width_le
  unfold takeGroup
  dsimp only
  split
  · rename_i hfull
    obtain ⟨hstart, hn, hbp⟩ := hfull
    set groups := min (n - c.out.length) c.d.bpLeft / 8 with hgroups
    refine ⟨groups * 8, by omega, by omega, by omega, ?_⟩
    -- the groups are in the run's bytes
    have hroom : groups * 8 * c.d.width
        ≤ 8 * (c.d.bp.drop (c.d.bpPos / 8 * c.d.width)).length := by
      have hbytes := hd.bp_le
      have hle : groups * 8 ≤ c.d.bpLeft := by omega
      have hmul := Nat.mul_le_mul_right c.d.width hle
      rw [add_mul] at hbytes
      have hstart' : c.d.bpPos * c.d.width = 8 * (c.d.bpPos / 8 * c.d.width) := by
        rw [← mul_assoc]
        congr 1
        omega
      rw [length_drop]
      omega
    have hgroup := valuesFrom_group c.d (groups * 8)
    rw [hstart] at hgroup
    rw [unpackBits_eq (by omega) hw (le_refl _) hroom (by omega), hgroup]
    rfl
  · refine ⟨min (min 8 (c.d.bpLeft + c.d.bpPos % 8) - c.d.bpPos % 8) (n - c.out.length),
      by omega, by omega, by omega, ?_⟩
    set k := min (min 8 (c.d.bpLeft + c.d.bpPos % 8) - c.d.bpPos % 8) (n - c.out.length)
    have hsplit : 8 * 1 = c.d.bpPos % 8 + (k + (8 - c.d.bpPos % 8 - k)) := by omega
    rw [unpackGroups_eq (by omega) hw, ok_bind, hsplit, valuesFrom_add, valuesFrom_add,
      zero_add, subspan, drop_left' (length_valuesFrom ..),
      take_left' (length_valuesFrom ..), valuesFrom_group]
    rfl

/-- Where `take_bitpacked` is: `k` values on in the run. -/
def Taken.At (d : RleBpDecoder) (k : ℕ) (c : Taken) : Prop :=
  c = ⟨valuesFrom d.bp d.width d.bpPos k, d.advance k⟩

theorem Taken.At.takeGroup (hc : c.At d k) (hd : d.Fits) (hk : k ≤ d.bpLeft)
    (hlt : c.out.length < n) (hleft : c.d.bpLeft ≠ 0) :
    ∃ c' j, takeGroup n c = .ok c' ∧ c'.At d (k + j) ∧ 0 < j ∧ k + j ≤ min n d.bpLeft := by
  subst hc
  obtain ⟨j, hpos, hn, hj, hstep⟩ := takeGroup_spec
    (c := ⟨valuesFrom d.bp d.width d.bpPos k, d.advance k⟩) (hd.advance hk) hlt hleft
  have hj' : j ≤ d.bpLeft - k := hj
  have hadvance : (d.advance k).advance j = d.advance (k + j) := by
    rw [advance, advance, advance, Nat.sub_sub, add_assoc]
  rw [length_valuesFrom] at hlt hn
  refine ⟨_, j, hstep, ?_, hpos, by omega⟩
  rw [Taken.At, valuesFrom_add, hadvance]
  rfl

/-- **`take_bitpacked` gives what is asked for**, as far as the run goes. -/
theorem takeBitpacked_spec (hd : d.Fits) (n : ℕ) :
    takeBitpacked n d = .ok ⟨valuesFrom d.bp d.width d.bpPos (min n d.bpLeft),
      d.advance (min n d.bpLeft)⟩ := by
  obtain ⟨c, hrun, ⟨k, hk, rfl⟩, hend⟩ := repeatWhile_inv Fault.unfinished
    (I := fun c => ∃ k ≤ min n d.bpLeft, c.At d k)
    (c := fun c : Taken => decide (c.out.length < n ∧ c.d.bpLeft ≠ 0))
    (fun c => c.d.bpLeft) (fun c ⟨k, hk, hc⟩ hcond => by
      obtain ⟨hlt, hleft⟩ := of_decide_eq_true hcond
      obtain ⟨c', j, hstep, hc', hpos, hle⟩ := hc.takeGroup hd (by omega) hlt hleft
      refine ⟨c', hstep, ⟨k + j, hle, hc'⟩, ?_⟩
      rw [hc, hc']
      show d.bpLeft - (k + j) < d.bpLeft - k
      omega)
    (s := ⟨[], d⟩) ⟨0, Nat.zero_le _, rfl⟩ (Nat.lt_succ_self _)
  have hdone := of_decide_eq_false hend
  rw [length_valuesFrom, show (d.advance k).bpLeft = d.bpLeft - k from rfl] at hdone
  have hk' : k = min n d.bpLeft := by omega
  rw [takeBitpacked, hrun, hk']

/-- What `get` promises. -/
structure Gets (n : ℕ) (d : RleBpDecoder) (t : Taken) : Prop where
  delivers : Delivers d t.out t.d
  le : t.out.length ≤ n
  short : t.out.length < n → t.d.Ended

theorem Gets.out_eq {t : Taken} (h : Gets n d t) : t.out = (stream d).1.take n := by
  rw [h.delivers.stream]
  rcases lt_or_ge t.out.length n with hshort | hfull
  · have hended : stream t.d = ([], t.d.ok) := h.short hshort
    rw [hended, append_nil, take_of_length_le hshort.le]
  · rw [take_left' (le_antisymm h.le hfull)]

theorem getRound_spec (hc : Delivers d c.out c.d) (hle : c.out.length ≤ n) :
    (∃ c', getRound n c = .next c' ∧ (Delivers d c'.out c'.d ∧ c'.out.length ≤ n) ∧
      n - c'.out.length + c'.d.p.length < n - c.out.length + c.d.p.length) ∨
    ∃ r, getRound n c = .stop r ∧ ∃ t, r = .ok t ∧ Gets n d t := by
  unfold getRound
  by_cases hcond : c.out.length < n ∧ c.d.ok = true
  · rw [if_pos hcond]
    obtain ⟨hlt, hok⟩ := hcond
    by_cases hrle : c.d.rleLeft ≠ 0
    · rw [if_pos hrle]
      set k := min c.d.rleLeft (n - c.out.length)
      have hpiece := delivers_rle hc.fits hok (show k ≤ c.d.rleLeft by omega)
      refine .inl ⟨_, rfl, ⟨hc.trans hpiece, ?_⟩, ?_⟩
      · rw [length_append, length_replicate]
        omega
      · dsimp only
        rw [length_append, length_replicate]
        omega
    rw [if_neg hrle]
    by_cases hbp : c.d.bpLeft ≠ 0
    · rw [if_pos hbp, takeBitpacked_spec hc.fits]
      set k := min (n - c.out.length) c.d.bpLeft
      have hpiece := delivers_packed hc.fits hok (not_not.1 hrle) (show k ≤ c.d.bpLeft by omega)
      refine .inl ⟨_, rfl, ⟨hc.trans hpiece, ?_⟩, ?_⟩
      · rw [length_append, length_valuesFrom]
        omega
      · rw [length_append, length_valuesFrom]
        show n - (c.out.length + k) + c.d.p.length < _
        omega
    · rw [if_neg hbp]
      obtain ⟨hpiece, hend⟩ := delivers_nextRun hc.fits hok (not_not.1 hrle) (not_not.1 hbp)
      have hnext := nextRun_lt (d := c.d)
      have hall := hc.trans hpiece
      rw [append_nil] at hall
      generalize nextRun c.d = r at hend hnext hall ⊢
      obtain ⟨d₁, - | -⟩ := r
      · exact .inr ⟨_, rfl, _, rfl, hall, hle, fun _ => hend rfl⟩
      · refine .inl ⟨_, rfl, ⟨hall, hle⟩, ?_⟩
        have hp := hnext rfl
        dsimp only at hp ⊢
        omega
  · rw [if_neg hcond]
    refine .inr ⟨_, rfl, c, rfl, hc, hle, fun hlt => ?_⟩
    exact ended_of_not_ok fun hok => hcond ⟨hlt, hok⟩

/-- **`get`.** -/
theorem get_spec (hd : d.Fits) (n : ℕ) : ∃ t, get n d = .ok t ∧ Gets n d t := by
  obtain ⟨r, hrun, t, rfl, ht⟩ := run_inv
    (I := fun c : Taken => Delivers d c.out c.d ∧ c.out.length ≤ n)
    (fun c => n - c.out.length + c.d.p.length) (fun c hc => getRound_spec hc.1 hc.2)
    (s := ⟨[], d⟩) ⟨.refl hd, Nat.zero_le n⟩
    (show n - 0 + d.p.length < n + d.p.length + 1 by omega)
  refine ⟨t, ?_, ht⟩
  rw [get, hrun]
  rfl

/-- What `skip` promises. -/
structure Skips (n : ℕ) (d : RleBpDecoder) (s : Skipped) : Prop where
  delivers : ∃ piece, Delivers d piece s.d ∧ piece.length = s.done
  le : s.done ≤ n
  short : s.done < n → s.d.Ended

theorem skipRound_spec {c : Skipped} {piece : List ℕ} (hpiece : Delivers d piece c.d)
    (hdone : piece.length = c.done) (hle : c.done ≤ n) :
    (∃ c', skipRound n c = .next c' ∧
      ((∃ piece, Delivers d piece c'.d ∧ piece.length = c'.done) ∧ c'.done ≤ n) ∧
      n - c'.done < n - c.done) ∨
    ∃ r, skipRound n c = .stop r ∧ ∃ s, r = .ok s ∧ Skips n d s := by
  unfold skipRound
  by_cases hlt : c.done < n
  · obtain ⟨t, hget, ht⟩ := get_spec hpiece.fits (min 256 (n - c.done))
    have hall := hpiece.trans ht.delivers
    have hsize := ht.le
    rw [if_pos hlt, hget]
    by_cases hnone : t.out = []
    · refine .inr ⟨.ok ⟨c.done, t.d⟩, if_pos hnone, _, rfl, ⟨_, hall, ?_⟩, hle, fun _ => ?_⟩
      · rw [hnone, append_nil, hdone]
      · refine ht.short ?_
        rw [hnone, length_nil]
        omega
    · have hpos := length_pos_iff.2 hnone
      refine .inl ⟨⟨c.done + t.out.length, t.d⟩, if_neg hnone, ⟨⟨_, hall, ?_⟩, ?_⟩, ?_⟩
      · rw [length_append, hdone]
      · show c.done + t.out.length ≤ n
        omega
      · show n - (c.done + t.out.length) < n - c.done
        omega
  · rw [if_neg hlt]
    exact .inr ⟨_, rfl, c, rfl, ⟨piece, hpiece, hdone⟩, hle, fun h => absurd h hlt⟩

/-- **`skip`.** -/
theorem skip_spec (hd : d.Fits) (n : ℕ) : ∃ s, skip n d = .ok s ∧ Skips n d s := by
  obtain ⟨r, hrun, s, rfl, hs⟩ := run_inv
    (I := fun c : Skipped => (∃ piece, Delivers d piece c.d ∧ piece.length = c.done) ∧ c.done ≤ n)
    (fun c => n - c.done) (fun c ⟨⟨_, hpiece, hdone⟩, hle⟩ => skipRound_spec hpiece hdone hle)
    (s := ⟨0, d⟩) ⟨⟨[], .refl hd, rfl⟩, Nat.zero_le n⟩
    (show n - 0 < n + 1 by omega)
  refine ⟨s, ?_, hs⟩
  rw [skip, hrun]
  rfl

/-- The values of a run: the one value, repeated, or those its bits
hold. -/
def Run.values (width : ℕ) : Run → List ℕ
  | .rle value count => List.replicate count value
  | .packed bits bitOffset count =>
    (List.range count).map fun i => field bits (bitOffset + i * width) width

/-- The bits of a packed run are there. -/
def Run.Readable (width : ℕ) : Run → Prop
  | .rle _ _ => True
  | .packed bits bitOffset count => bitOffset + count * width ≤ 8 * bits.length

/-- What `next_run(r, max_values)` promises. -/
inductive GivesRun (maxValues : ℕ) (d : RleBpDecoder) : Option Run × RleBpDecoder → Prop
  | some {r : Run} {d' : RleBpDecoder} : Delivers d (r.values d.width) d' → r.Readable d.width →
      0 < (r.values d.width).length → (r.values d.width).length ≤ maxValues →
      GivesRun maxValues d (some r, d')
  | none {d' : RleBpDecoder} : Delivers d [] d' → (0 < maxValues → d'.Ended) →
      GivesRun maxValues d (none, d')

theorem values_packed (d : RleBpDecoder) (count : ℕ) :
    (Run.packed (d.bp.drop (d.bpPos * d.width / 8)) (d.bpPos * d.width % 8) count).values d.width
      = valuesFrom d.bp d.width d.bpPos count := by
  rw [valuesFrom, range'_eq_map_range, map_map]
  refine map_congr_left fun i _ => ?_
  show _ = field d.bp ((d.bpPos + i) * d.width) d.width
  rw [field_drop, ← add_assoc, Nat.div_add_mod, add_mul]

theorem runRound_spec (maxValues : ℕ) {c : RleBpDecoder} (hc : Delivers d [] c) :
    (∃ c', runRound maxValues c = .next c' ∧ Delivers d [] c' ∧ c'.p.length < c.p.length) ∨
    ∃ b, runRound maxValues c = .stop b ∧ ∃ r, b = .ok r ∧ GivesRun maxValues d r := by
  have hwidth := hc.width
  unfold runRound
  by_cases hcond : c.ok = true ∧ maxValues ≠ 0
  · rw [if_pos hcond]
    obtain ⟨hok, hmax⟩ := hcond
    by_cases hrle : c.rleLeft ≠ 0
    · rw [if_pos hrle]
      have hpiece := hc.trans (delivers_rle hc.fits hok (min_le_left c.rleLeft maxValues))
      have hlen : (replicate (min c.rleLeft maxValues) c.rleValue).length
          = min c.rleLeft maxValues := length_replicate
      refine .inr ⟨_, rfl, _, rfl, .some hpiece trivial ?_ ?_⟩
      · rw [Run.values]
        omega
      · rw [Run.values]
        omega
    rw [if_neg hrle]
    by_cases hbp : c.bpLeft ≠ 0
    · have hbytes := hc.fits.bp_le
      have hmin : min c.bpLeft maxValues ≤ c.bpLeft := min_le_left _ _
      have hmul := Nat.mul_le_mul_right c.width hmin
      rw [add_mul] at hbytes
      have hpiece := hc.trans (delivers_packed hc.fits hok (not_not.1 hrle) hmin)
      rw [← values_packed, hwidth] at hpiece
      have hlen := length_valuesFrom c.bp c.width c.bpPos (min c.bpLeft maxValues)
      rw [← values_packed, hwidth] at hlen
      rw [if_pos hbp]
      dsimp only
      rw [if_pos (by omega), hwidth]
      refine .inr ⟨_, rfl, _, rfl, .some hpiece ?_ ?_ ?_⟩
      · rw [Run.Readable, length_drop, ← hwidth]
        omega
      · omega
      · omega
    · rw [if_neg hbp]
      obtain ⟨hpiece, hend⟩ := delivers_nextRun hc.fits hok (not_not.1 hrle) (not_not.1 hbp)
      have hnext := nextRun_lt (d := c)
      have hall := hc.trans hpiece
      generalize nextRun c = r at hend hnext hall ⊢
      obtain ⟨d₁, - | -⟩ := r
      · exact .inr ⟨_, rfl, _, rfl, .none hall fun _ => hend rfl⟩
      · exact .inl ⟨_, rfl, hall, hnext rfl⟩
  · rw [if_neg hcond]
    refine .inr ⟨_, rfl, _, rfl, .none hc fun hpos => ?_⟩
    exact ended_of_not_ok fun hok => hcond ⟨hok, by omega⟩

/-- **`next_run(r, max_values)`.** -/
theorem nextRunUpTo_spec (hd : d.Fits) (maxValues : ℕ) :
    ∃ r, nextRunUpTo maxValues d = .ok r ∧ GivesRun maxValues d r := by
  obtain ⟨b, hrun, r, rfl, hr⟩ := run_inv (I := fun c => Delivers d [] c) (fun c => c.p.length)
    (fun c hc => runRound_spec maxValues hc) (.refl hd) (Nat.lt_succ_self d.p.length)
  refine ⟨r, ?_, hr⟩
  rw [nextRunUpTo, hrun]
  rfl

/-! ## Any sequence of calls -/

/-- A call of one of the readers. -/
inductive Call
  | get (n : ℕ)
  | skip (n : ℕ)
  | nextRun (maxValues : ℕ)

/-- What a call returns: the values, how many were skipped, or a run. -/
inductive Reply
  | values (out : List ℕ)
  | skipped (done : ℕ)
  | run (r : Option Run)

/-- A call, and the decoder behind it. -/
def perform (d : RleBpDecoder) : Call → Except Fault (Reply × RleBpDecoder)
  | .get n => do
      let t ← get n d
      return (.values t.out, t.d)
  | .skip n => do
      let s ← skip n d
      return (.skipped s.done, s.d)
  | .nextRun maxValues => do
      let (r, d') ← nextRunUpTo maxValues d
      return (.run r, d')

/-- The replies to calls one after the other, each with what `ok()` is
then. -/
def performAll (d : RleBpDecoder) : List Call → Except Fault (List (Reply × Bool))
  | [] => .ok []
  | call :: calls => do
      let (reply, d') ← d.perform call
      let replies ← d'.performAll calls
      return (reply, d'.ok) :: replies

/-- A reply delivers a piece of the stream: the values that `get` writes,
as many as `skip` says, or those of the run; no more than asked for. -/
inductive Reply.Piece (width : ℕ) : Call → Reply → List ℕ → Prop
  | get {n : ℕ} {piece : List ℕ} : piece.length ≤ n → Piece width (.get n) (.values piece) piece
  | skip {n : ℕ} {piece : List ℕ} : piece.length ≤ n →
      Piece width (.skip n) (.skipped piece.length) piece
  | run {maxValues : ℕ} {r : Run} : r.Readable width → 0 < (r.values width).length →
      (r.values width).length ≤ maxValues →
      Piece width (.nextRun maxValues) (.run (some r)) (r.values width)
  | noRun {maxValues : ℕ} : Piece width (.nextRun maxValues) (.run none) []

/-- A reply that delivers fewer values than asked for. -/
def Reply.Short : Call → Reply → Prop
  | .get n, .values out => out.length < n
  | .skip n, .skipped done => done < n
  | .nextRun maxValues, .run none => 0 < maxValues
  | _, _ => False

/-- The replies to a sequence of calls deliver one stream: consecutive
pieces of it, and a short one only where it ends, with `ok()` as it is at
the end. -/
inductive Pieces (width : ℕ) (ok : Bool) : List ℕ → List Call → List (Reply × Bool) → Prop
  | nil {rest : List ℕ} : Pieces width ok rest [] []
  | cons {piece rest : List ℕ} {call : Call} {reply : Reply} {okNow : Bool} {calls : List Call}
      {replies : List (Reply × Bool)} :
      reply.Piece width call piece → (reply.Short call → rest = [] ∧ okNow = ok) →
      Pieces width ok rest calls replies →
      Pieces width ok (piece ++ rest) (call :: calls) ((reply, okNow) :: replies)

/-- **A call takes a piece of the stream.** -/
theorem perform_spec (hd : d.Fits) (call : Call) :
    ∃ reply d' piece, d.perform call = .ok (reply, d') ∧ Delivers d piece d' ∧
      reply.Piece d.width call piece ∧ (reply.Short call → d'.Ended) := by
  cases call with
  | get n =>
    obtain ⟨t, hget, ht⟩ := get_spec hd n
    refine ⟨.values t.out, t.d, t.out, ?_, ht.delivers, .get ht.le, ht.short⟩
    rw [perform, hget]
    rfl
  | skip n =>
    obtain ⟨s, hskip, hs⟩ := skip_spec hd n
    obtain ⟨piece, hpiece, hlen⟩ := hs.delivers
    refine ⟨.skipped s.done, s.d, piece, ?_, hpiece, ?_, hs.short⟩
    · rw [perform, hskip]
      rfl
    · rw [← hlen]
      exact .skip (hlen ▸ hs.le)
  | nextRun maxValues =>
    obtain ⟨r, hrun, hr⟩ := nextRunUpTo_spec hd maxValues
    rw [perform, hrun]
    cases hr with
    | some hpiece hread hpos hle =>
      exact ⟨_, _, _, rfl, hpiece, .run hread hpos hle, False.elim⟩
    | none hpiece hend => exact ⟨_, _, _, rfl, hpiece, .noRun, hend⟩

theorem performAll_spec (hd : d.Fits) (calls : List Call) :
    ∃ replies, d.performAll calls = .ok replies ∧
      Pieces d.width (stream d).2 (stream d).1 calls replies := by
  induction calls generalizing d with
  | nil => exact ⟨[], rfl, .nil⟩
  | cons call calls ih =>
    obtain ⟨reply, d', piece, hcall, hpiece, hreply, hshort⟩ := perform_spec hd call
    obtain ⟨replies, hcalls, hpieces⟩ := ih hpiece.fits
    refine ⟨(reply, d'.ok) :: replies, ?_, ?_⟩
    · rw [performAll, hcall]
      show (d'.performAll calls >>= fun replies => Except.ok ((reply, d'.ok) :: replies)) = _
      rw [hcalls]
      rfl
    · rw [hpiece.width] at hpieces
      rw [hpiece.stream]
      refine .cons hreply (fun h => ?_) hpieces
      have hend : stream d' = ([], d'.ok) := hshort h
      rw [hend]
      exact ⟨rfl, rfl⟩

theorem start_fits (data : Bytes) {width : ℕ} (hw : width ≤ 32) : (start data width).Fits :=
  ⟨hw, by
    show (0 + 0) * width ≤ 8 * 0
    rw [Nat.zero_mul]⟩

/-- **One stream.** Whatever the bytes are, there are values and a final
`ok()` such that one `get` of any size delivers the first of the values,
and every sequence of `get`, `skip` and `next_run` calls delivers them
piece by piece: short only where they end, and then with that `ok()`. -/
theorem one_stream (data : Bytes) {width : ℕ} (hw : width ≤ 32) :
    ∃ (values : List ℕ) (ok : Bool),
      (∀ n, ∃ t, get n (start data width) = .ok t ∧ t.out = values.take n ∧
        (values.length < n → t.d.ok = ok)) ∧
      ∀ calls, ∃ replies, (start data width).performAll calls = .ok replies ∧
        Pieces width ok values calls replies := by
  have hd := start_fits data hw
  refine ⟨(stream (start data width)).1, (stream (start data width)).2, fun n => ?_,
    fun calls => performAll_spec hd calls⟩
  obtain ⟨t, hget, ht⟩ := get_spec hd n
  have hle := ht.le
  have hstream := ht.delivers.stream
  refine ⟨t, hget, ?_, fun hlt => ?_⟩
  · rw [hstream]
    rcases lt_or_ge t.out.length n with hlt | hge
    · have hend : stream t.d = ([], t.d.ok) := ht.short hlt
      rw [hend, append_nil, take_of_length_le hle]
    · rw [take_append_of_le_length hge, take_of_length_le hle]
  · rw [hstream, length_append] at hlt
    have hend : stream t.d = ([], t.d.ok) := ht.short (by omega)
    rw [hstream, hend]

/-- On a packed group of three-bit values and a run of ten fives. -/
theorem one_stream_two_runs : (3 ≤ 32) ∧ ∃ (values : List ℕ) (ok : Bool),
    (∀ n, ∃ t, get n (start [3, 209, 218, 182, 20, 5] 3) = .ok t ∧ t.out = values.take n ∧
      (values.length < n → t.d.ok = ok)) ∧
    ∀ calls, ∃ replies, (start [3, 209, 218, 182, 20, 5] 3).performAll calls = .ok replies ∧
      Pieces 3 ok values calls replies := ⟨by decide, one_stream _ (by decide)⟩

end Nanom.Columnar.RleBpDecoder
