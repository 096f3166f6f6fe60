import Mathlib.Data.List.Infix
import Nanom.Soa.Faithful

/-!
# Chunks delivered to other threads

`StreamingArrowSession::run` decodes a capture and hands the chunks of every
table to a consumer, through a `ChunkQueue` of its own. A section under a
queue's mutex is one step, a thread that waits stays where it is, and a schedule
is any list of threads. Only sealed chunks are handed over before the last
flush, so a chunk that a consumer was given does not change any more.
-/

namespace Nanom.Soa

open Layout List Function

variable {abi : Abi} {n : ℕ}

/-- A table with its `ChunkQueue` and its poller. `popped` is what the consumer
got, and `ended` the error it got in the end, empty where `pop` returned false. -/
structure Table (abi : Abi) (T : Ty) where
  store : Store abi T
  lastDelivered : ℕ
  queue : List (Chunk abi T)
  done : Option String
  popped : List (Chunk abi T)
  ended : Option String

namespace Table

variable {T : Ty} (t : Table abi T)

/-- How many chunks a poller may hand over. -/
def deliverable (finalFlush : Bool) : ℕ :=
  if finalFlush then t.store.chunkCount else t.store.chunkCount - 1

/-- The next chunk is pushed to the queue. -/
def deliver : Table abi T :=
  { t with
    queue := t.queue ++ [t.store.chunkAt t.lastDelivered]
    lastDelivered := t.lastDelivered + 1 }

/-- `pop`, which waits for a chunk or the end. -/
def pop : Table abi T :=
  match t.queue, t.done with
  | d :: q, _ => { t with queue := q, popped := t.popped ++ [d] }
  | [], some error => { t with ended := some error }
  | [], none => t

def feed (rows : List T.Value) : Table abi T :=
  { t with store := Run.after Store.step t.store (rows.map .push) }

end Table

variable {T : Fin n → Ty}

/-- How far `run` is. A block stands for the rows its decoding pushes to each
table, and the pollers after it come before the next. -/
inductive Phase (T : Fin n → Ty)
  | feeding (blocks : List ((i : Fin n) → List (T i).Value)) (polls : List (Fin n))
  | flushing (polls : List (Fin n))
  | finishing (left : List (Fin n)) (error : String)

/-- `StreamingArrowSession`. -/
structure Streaming (abi : Abi) (T : Fin n → Ty) where
  phase : Phase T
  stop : Bool
  tables : (i : Fin n) → Table abi (T i)

/-- Who takes the next step: `run`, the consumer of a table, or a caller who asks
the session to stop. -/
inductive Thread (n : ℕ)
  | run
  | consumer (i : Fin n)
  | requestStop

namespace Streaming

/-- A poller: the next chunk is pushed where there is room, unless the session is
to stop, and then `run` goes on with `stopped`; after the last one with `next`. -/
def poll (bound : ℕ) (s : Streaming abi T) (i : Fin n) (finalFlush : Bool)
    (stopped next : Phase T) : Streaming abi T :=
  if (s.tables i).lastDelivered < (s.tables i).deliverable finalFlush then
    -- `push` looks at the stop token first, and then for room
    if s.stop then { s with phase := stopped }
    else if (s.tables i).queue.length < bound then
      { s with tables := Function.update s.tables i (s.tables i).deliver }
    else s
  else { s with phase := next }

/-- The step of a thread. `error` is what the scan of the capture came to. -/
def step (bound : ℕ) (error : String) (s : Streaming abi T) : Thread n → Streaming abi T
  | .requestStop => { s with stop := true }
  | .consumer i => { s with tables := Function.update s.tables i (s.tables i).pop }
  | .run =>
    match s.phase with
    | .feeding blocks (i :: polls) =>
      s.poll bound i false (.finishing (finRange n) "") (.feeding blocks polls)
    | .feeding (rows :: blocks) [] =>
      if s.stop then { s with phase := .finishing (finRange n) "" }
      else { s with
        phase := .feeding blocks (finRange n)
        tables := fun i => (s.tables i).feed (rows i) }
    | .feeding [] [] =>
      { s with phase := if s.stop then .finishing (finRange n) "" else .flushing (finRange n) }
    -- what a poller returns is not looked at here
    | .flushing (i :: polls) => s.poll bound i true (.flushing polls) (.flushing polls)
    | .flushing [] => { s with phase := .finishing (finRange n) error }
    | .finishing (i :: left) error =>
      { s with
        phase := .finishing left error
        tables := Function.update s.tables i { s.tables i with done := some error } }
    | .finishing [] _ => s

def start (chunkRows : Fin n → ℕ) (blocks : List ((i : Fin n) → List (T i).Value)) :
    Streaming abi T where
  phase := .feeding blocks []
  stop := false
  tables i := ⟨.new (chunkRows i), 0, [], none, [], none⟩

end Streaming

/-! ## What is handed over -/

theorem Store.sealed_prefix {T : Ty} (s : Store abi T) (c : Call T) :
    s.sealed <+: (s.step c).sealed := by
  have hseal : ∀ s : Store abi T, s.sealed <+: s.sealChunk.sealed := by
    intro s
    rw [sealChunk]
    split
    · exact prefix_rfl
    · exact prefix_append ..
  cases c with
  | sealChunk => exact hseal s
  | push v =>
    rw [step, push]
    split
    · exact hseal { s with current := s.current.push v }
    · exact prefix_rfl

/-- What is sealed stays as it is. -/
theorem Store.take_chunks_after {T : Ty} {s : Store abi T} {k : ℕ} (hk : k ≤ s.sealed.length)
    (calls : List (Call T)) :
    k ≤ (Run.after Store.step s calls).sealed.length ∧
      (Run.after Store.step s calls).chunks.take k = s.chunks.take k := by
  induction calls generalizing s with
  | nil => exact ⟨hk, rfl⟩
  | cons c calls ih =>
    obtain ⟨l, hl⟩ := s.sealed_prefix c
    have hk' : k ≤ (s.step c).sealed.length := by
      rw [← hl, length_append]
      omega
    obtain ⟨hle, htake⟩ := ih hk'
    refine ⟨hle, htake.trans ?_⟩
    rw [chunks, chunks, take_append_of_le_length hk', take_append_of_le_length hk, ← hl,
      take_append_of_le_length hk]

namespace Table

/-- **What holds of a table at any time.** -/
structure Sound {T : Ty} (bound : ℕ) (t : Table abi T) : Prop where
  handed : t.popped ++ t.queue = t.store.chunks.take t.lastDelivered
  le : t.lastDelivered ≤ t.store.chunkCount
  room : t.queue.length ≤ bound
  ended : t.ended.isSome → t.done.isSome ∧ t.queue = []

/-- What holds of a table in a phase, of the rows that the capture has for it. -/
def Meets (stop : Bool) (i : Fin n) (rows : List (T i).Value) (t : Table abi (T i)) : Phase T → Prop
  | .feeding blocks _ => t.done = none ∧ t.lastDelivered ≤ t.store.sealed.length ∧
      ∃ fed, t.store.Keeps fed ∧ fed ++ blocks.flatMap (· i) = rows
  | .flushing polls => t.done = none ∧ t.store.Keeps rows ∧
      (stop = true ∨ i ∈ polls ∨ t.lastDelivered = t.store.chunkCount)
  | .finishing left _ => (i ∈ left ∨ t.done.isSome) ∧
      (stop = true ∨ t.store.Keeps rows ∧ t.lastDelivered = t.store.chunkCount)

section

variable {T : Ty} {bound : ℕ} {t : Table abi T}

theorem Sound.pop (h : t.Sound bound) : t.pop.Sound bound := by
  rw [Table.pop]
  split
  · rename_i d q _ hq
    have hroom := h.room
    rw [hq, length_cons] at hroom
    refine ⟨?_, h.le, Nat.le_of_succ_le hroom, fun he => ?_⟩
    · rw [append_assoc, ← h.handed, hq]
      rfl
    · rw [(h.ended he).2] at hq
      cases hq
  · rename_i error hq hdone
    exact { h with ended := fun _ => ⟨by rw [hdone]; rfl, hq⟩ }
  · exact h

/-- A consumer that waits. -/
theorem waits_of_pop (h : t.pop = t) : t.queue = [] ∧ (t.done.isSome → t.ended.isSome) := by
  rw [Table.pop] at h
  split at h
  · have hpopped := congrArg (·.popped.length) h
    simp at hpopped
  · rename_i hq _
    exact ⟨hq, fun _ => by rw [← h]; rfl⟩
  · rename_i hq hdone
    exact ⟨hq, fun hd => by rw [hdone] at hd; cases hd⟩

theorem Sound.feed (h : t.Sound bound) (hle : t.lastDelivered ≤ t.store.sealed.length)
    (rows : List T.Value) : (t.feed rows).Sound bound := by
  obtain ⟨hle', htake⟩ := Store.take_chunks_after hle (rows.map .push)
  exact ⟨h.handed.trans htake.symm, hle'.trans (Nat.le_add_right _ _), h.room, h.ended⟩

theorem Sound.deliver (h : t.Sound bound) (hopen : t.done = none) (hroom : t.queue.length < bound)
    (hlt : t.lastDelivered < t.store.chunkCount) : t.deliver.Sound bound := by
  refine ⟨?_, hlt, ?_, fun he => ?_⟩
  · rw [Table.deliver, ← append_assoc, h.handed, take_add_one, t.store.getElem?_chunks hlt]
    rfl
  · rw [Table.deliver, length_append]
    exact hroom
  · have hdone := (h.ended he).1
    rw [hopen] at hdone
    cases hdone

end

variable {stop : Bool} {i : Fin n} {rows : List (T i).Value} {t : Table abi (T i)} {phase : Phase T}

theorem Meets.requestStop (h : t.Meets stop i rows phase) : t.Meets true i rows phase := by
  cases phase with
  | feeding blocks polls => exact h
  | flushing polls => exact ⟨h.1, h.2.1, .inl rfl⟩
  | finishing left error => exact ⟨h.1, .inl rfl⟩

theorem Meets.pop (h : t.Meets stop i rows phase) : t.pop.Meets stop i rows phase := by
  rw [Table.pop]
  split <;> exact h

end Table

namespace Streaming

variable {bound : ℕ} {j : Fin n} {rows : (i : Fin n) → List (T i).Value} {s : Streaming abi T}

/-- What holds of all tables. -/
def Sound (bound : ℕ) (rows : (i : Fin n) → List (T i).Value) (s : Streaming abi T) : Prop :=
  ∀ i, (s.tables i).Sound bound ∧ (s.tables i).Meets s.stop i (rows i) s.phase

/-- One table is changed. -/
theorem Sound.update (h : s.Sound bound rows) {t : Table abi (T j)} (ht : t.Sound bound)
    (hmeets : t.Meets s.stop j (rows j) s.phase) :
    Sound bound rows { s with tables := update s.tables j t } := by
  intro i
  by_cases hij : i = j
  · subst hij
    dsimp only
    rw [update_self]
    exact ⟨ht, hmeets⟩
  · dsimp only
    rw [update_of_ne hij]
    exact h i

theorem Sound.poll (h : s.Sound bound rows) {finalFlush : Bool} {stopped next : Phase T}
    (hopen : (s.tables j).done = none)
    (hstop : s.stop = true → ∀ i, (s.tables i).Meets s.stop i (rows i) stopped)
    (hnext : (s.tables j).deliverable finalFlush ≤ (s.tables j).lastDelivered →
      ∀ i, (s.tables i).Meets s.stop i (rows i) next)
    (hdeliver : (s.tables j).lastDelivered < (s.tables j).deliverable finalFlush →
      (s.tables j).deliver.Meets s.stop j (rows j) s.phase) :
    (s.poll bound j finalFlush stopped next).Sound bound rows := by
  rw [Streaming.poll]
  split_ifs with hlt hs hroom
  · exact fun i => ⟨(h i).1, hstop hs i⟩
  · refine h.update ((h j).1.deliver hopen hroom (hlt.trans_le ?_)) (hdeliver hlt)
    rw [Table.deliverable]
    split <;> omega
  · exact h
  · exact fun i => ⟨(h i).1, hnext (not_lt.1 hlt) i⟩

/-- **What one step of a thread preserves.** -/
theorem Sound.step {error : String} (h : s.Sound bound rows) (thread : Thread n) :
    (s.step bound error thread).Sound bound rows := by
  cases thread with
  | requestStop => exact fun i => ⟨(h i).1, (h i).2.requestStop⟩
  | consumer i => exact h.update (h i).1.pop (h i).2.pop
  | run =>
    obtain ⟨phase, stop, tables⟩ := s
    cases phase with
    | feeding blocks polls =>
      cases polls with
      | cons j polls =>
        obtain ⟨hopen, -, hfed⟩ := (h j).2
        refine h.poll hopen (fun hs i => ⟨.inl (mem_finRange i), .inl hs⟩) (fun _ i => (h i).2) ?_
        -- one chunk at most is not sealed yet
        intro hlt
        refine ⟨hopen, ?_, hfed⟩
        have hcount : (tables j).store.chunkCount ≤ (tables j).store.sealed.length + 1 := by
          rw [Store.chunkCount]
          split <;> omega
        exact Nat.le_of_lt_succ ((Nat.add_lt_of_lt_sub hlt).trans_le hcount)
      | nil =>
        cases stop with
        | true =>
          have hfinish : ∀ i, (tables i).Meets true i (rows i) (.finishing (finRange n) "") :=
            fun i => ⟨.inl (mem_finRange i), .inl rfl⟩
          cases blocks <;> exact fun i => ⟨(h i).1, hfinish i⟩
        | false =>
          intro i
          obtain ⟨hopen, hle, fed, hkeeps, hfed⟩ := (h i).2
          cases blocks with
          | nil =>
            rw [flatMap_nil, append_nil] at hfed
            exact ⟨(h i).1, hopen, hfed ▸ hkeeps, .inr (.inl (mem_finRange i))⟩
          | cons block blocks =>
            have hpushed : pushed ((block i).map .push) = block i := by simp [pushed]
            have hafter := hkeeps.after ((block i).map .push)
            rw [hpushed] at hafter
            -- the chunks in the queues are sealed, and feeding leaves these alone
            refine ⟨(h i).1.feed hle _, hopen, ?_, _, hafter, ?_⟩
            · exact (Store.take_chunks_after hle _).1
            · rw [append_assoc, ← hfed, flatMap_cons]
    | flushing polls =>
      cases polls with
      | nil =>
        refine fun i => ⟨(h i).1, .inl (mem_finRange i), ?_⟩
        obtain ⟨-, hkeeps, hlast⟩ := (h i).2
        exact hlast.imp_right fun hlast => ⟨hkeeps, hlast.resolve_left not_mem_nil⟩
      | cons j polls =>
        have hopen := (h j).2.1
        refine h.poll hopen (fun hs i => ?_) (fun hle i => ?_) fun _ => ?_
        · exact ⟨(h i).2.1, (h i).2.2.1, .inl hs⟩
        · obtain ⟨hopen, hkeeps, hlast⟩ := (h i).2
          refine ⟨hopen, hkeeps, hlast.imp_right fun hlast => ?_⟩
          by_cases hij : i = j
          · subst hij
            exact .inr (le_antisymm (h i).1.le hle)
          · exact hlast.imp_left fun hmem => (mem_cons.1 hmem).resolve_left hij
        · exact ⟨hopen, (h j).2.2.1, .inr (.inl mem_cons_self)⟩
    | finishing left text =>
      cases left with
      | nil => exact h
      | cons j left =>
        intro i
        obtain ⟨hsound, hleft, hall⟩ := h i
        by_cases hij : i = j
        · subst hij
          simp only [Streaming.step, update_self]
          exact ⟨{ hsound with ended := fun he => ⟨rfl, (hsound.ended he).2⟩ }, .inr rfl, hall⟩
        · simp only [Streaming.step, update_of_ne hij]
          exact ⟨hsound, hleft.imp_left fun hmem => (mem_cons.1 hmem).resolve_left hij, hall⟩

section Schedule

variable (abi : Abi) (bound : ℕ) (error : String) (chunkRows : Fin n → ℕ)
variable (blocks : List ((i : Fin n) → List (T i).Value)) (schedule : List (Thread n))

/-- Where a schedule leads. -/
def reached : Streaming abi T := Run.after (step bound error) (start chunkRows blocks) schedule

theorem sound_reached : (reached abi bound error chunkRows blocks schedule).Sound bound
    fun i => blocks.flatMap (· i) := by
  refine Run.inv_of_forall (Q := fun _ => True) (fun _ thread h _ => h.step thread) ?_
    fun _ _ => trivial
  refine fun i => ⟨⟨rfl, Nat.zero_le _, Nat.zero_le _, nofun⟩, rfl, Nat.zero_le _, [], ?_, rfl⟩
  exact Store.keeps_new abi (T i) (chunkRows i)

/-- **Chunks are delivered once, in order and unchanged**, whatever the schedule:
what a consumer got and what its queue holds, within the bound, are the first
chunks of the table. A consumer ends only when its queue is closed and empty, and
has then every row of the capture, unless the session was asked to stop. -/
theorem chunks_delivered (i : Fin n) :
    let s : Streaming abi T := reached abi bound error chunkRows blocks schedule
    (s.tables i).queue.length ≤ bound ∧
    (s.tables i).popped ++ (s.tables i).queue
      = (s.tables i).store.chunks.take (s.tables i).lastDelivered ∧
    ((s.tables i).ended.isSome → (s.tables i).done.isSome ∧ (s.tables i).queue = [] ∧
      (s.stop = false → ∃ groups, Forall₂ Chunk.Holds (s.tables i).popped groups ∧
        groups.flatten = blocks.flatMap (· i))) := by
  intro s
  obtain ⟨h, hmeets⟩ := sound_reached abi bound error chunkRows blocks schedule i
  refine ⟨h.room, h.handed, fun he => ⟨(h.ended he).1, (h.ended he).2, fun hstop => ?_⟩⟩
  obtain ⟨hdone, hqueue⟩ := h.ended he
  obtain ⟨hkeeps, hlast⟩ : (s.tables i).store.Keeps (blocks.flatMap (· i)) ∧
      (s.tables i).lastDelivered = (s.tables i).store.chunkCount := by
    change (s.tables i).Meets s.stop i _ s.phase at hmeets
    cases hphase : s.phase with
    | finishing left text =>
      rw [hphase, hstop] at hmeets
      exact hmeets.2.resolve_left Bool.false_ne_true
    | feeding _ _ | flushing _ =>
      rw [hphase] at hmeets
      rw [hmeets.1] at hdone
      cases hdone
  have hpopped : (s.tables i).popped = (s.tables i).store.chunks := by
    have hhanded := h.handed
    rwa [hqueue, append_nil, hlast, Store.chunkCount_eq, take_length] at hhanded
  exact hpopped ▸ hkeeps.chunks

/-- **Nobody waits forever**: until a consumer comes to the end, `run` or some
consumer can go on, where a queue has room for a chunk. -/
theorem no_deadlock (i : Fin n) :
    let s : Streaming abi T := reached abi (bound + 1) error chunkRows blocks schedule
    (s.tables i).ended.isSome ∨ s.step (bound + 1) error .run ≠ s ∨
      ∃ j, s.step (bound + 1) error (.consumer j) ≠ s := by
  intro s
  by_contra hstuck
  simp only [not_or, not_exists, not_not] at hstuck
  obtain ⟨hended, hrun, hconsumers⟩ := hstuck
  -- every consumer waits, so all queues are empty and no poller waits for room
  have hwaits : ∀ j, (s.tables j).pop = s.tables j := by
    intro j
    simpa [step] using congrFun (congrArg tables (hconsumers j)) j
  have hpoll : ∀ j f stopped next, s.poll (bound + 1) j f stopped next = s →
      s.phase = stopped ∨ s.phase = next := by
    intro j f stopped next hpoll
    rw [poll] at hpoll
    split_ifs at hpoll with hlt hs hroom
    · exact .inl (congrArg phase hpoll).symm
    · have hlast := congrArg (fun s => (s.tables j).lastDelivered) hpoll
      simp [Table.deliver] at hlast
    · rw [(Table.waits_of_pop (hwaits j)).1] at hroom
      exact absurd bound.succ_pos hroom
    · exact .inr (congrArg phase hpoll).symm
  have hphase := congrArg phase hrun
  have hmeets := (sound_reached abi (bound + 1) error chunkRows blocks schedule i).2
  change (s.tables i).Meets s.stop i _ s.phase at hmeets
  clear_value s
  obtain ⟨phase, stop, tables⟩ := s
  cases phase with
  | feeding blocks polls =>
    cases polls with
    | cons j polls => rcases hpoll _ _ _ _ hrun with h | h <;> simp at h
    | nil => cases blocks <;> cases stop <;> simp [step] at hphase
  | flushing polls =>
    cases polls with
    | cons j polls => rcases hpoll _ _ _ _ hrun with h | h <;> simp at h
    | nil => simp [step] at hphase
  | finishing left text =>
    cases left with
    | cons j left => simp [step] at hphase
    | nil =>
      have hdone := hmeets.1.resolve_left not_mem_nil
      exact hended ((Table.waits_of_pop (hwaits i)).2 hdone)

end Schedule

end Streaming

end Nanom.Soa
