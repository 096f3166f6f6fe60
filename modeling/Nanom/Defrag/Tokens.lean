import Nanom.Defrag.Step
/-!
# Fragment reassembly — tokens are conserved

A token goes in with a stored span and comes back when that span is dropped.
Each call is described by the spans it drops (`spans_step`): a fragment drops
none and stores at most itself, a retirement drops the spans of one entry, an
eviction those of every entry it removes. Over a run the tokens accepted are the
tokens returned and the tokens still stored.
-/

namespace Nanom.Defrag.ReassemblyTable

open FragmentSpan (token)

open List

variable {T : Token}
variable {Key : Type} [DecidableEq Key] {σ : ComparisonSort} {cfg : Config}
variable {t : ReassemblyTable Key} {key : Key} {f : FragmentSpan} {id now : ℕ}

/-- The spans a list of entries stores. -/
def spansOf (l : List (ℕ × Reassembly)) : List FragmentSpan := l.flatMap fun e => e.2.fragments

/-- The spans the table stores. -/
def spans (t : ReassemblyTable Key) : List FragmentSpan := spansOf t.byId.entries

/-- The fragment a call stores. -/
def accepted (σ : ComparisonSort) (t : ReassemblyTable Key) : Op Key → List FragmentSpan
  | .addFragment key f => if (t.addFragment σ key f).2.retained then [f] else []
  | .retire _ => []
  | .evictStale _ => []

/-- The tokens a call returns. -/
def returned (t : ReassemblyTable Key) : Op Key → List Token
  | .addFragment _ _ => []
  | .retire id => (t.retire id).2
  | .evictStale now => (t.evictStale now).2.flatMap ReassemblySummary.tokens

/-- The fragments a run stores, call by call. -/
def acceptedBy (σ : ComparisonSort) (t : ReassemblyTable Key) : List (Op Key) → List FragmentSpan
  | [] => []
  | op :: ops => t.accepted σ op ++ acceptedBy σ (t.step σ op) ops

/-- The tokens a run returns, call by call. -/
def returnedBy (σ : ComparisonSort) (t : ReassemblyTable Key) : List (Op Key) → List Token
  | [] => []
  | op :: ops => t.returned op ++ returnedBy σ (t.step σ op) ops

/-- The tracked tokens among some. -/
def tracked (ts : List Token) : List Token := ts.filter (· ≠ kNoToken)

theorem count_tracked {ts : List Token} (hT : T ≠ kNoToken) :
    (tracked ts).count T = ts.count T := count_filter (by simpa using hT)

theorem tracked_tracked {ts : List Token} : tracked (tracked ts) = tracked ts := by
  simp [tracked]

/-! ## The spans a call drops -/

theorem spansOf_append (l l' : List (ℕ × Reassembly)) :
    spansOf (l ++ l') = spansOf l ++ spansOf l' := flatMap_append

theorem spans_modify {m : Assoc ℕ Reassembly} {r r' : Reassembly} {gone more : List FragmentSpan}
    (h : m.find? id = some r) (hr : (r.fragments ++ more).Perm (gone ++ r'.fragments)) :
    (spansOf m.entries ++ more).Perm (gone ++ spansOf (m.modify id fun _ => r').entries) := by
  obtain ⟨l₁, l₂, hl, hmod⟩ := Assoc.exists_split h
  rw [hl, hmod]
  have hsplit : ∀ q : Reassembly, (spansOf (l₁ ++ (id, q) :: l₂)).Perm
      (q.fragments ++ (spansOf l₁ ++ spansOf l₂)) := by
    intro q
    rw [spansOf_append]
    exact perm_append_comm_assoc _ _ _
  calc (spansOf (l₁ ++ (id, r) :: l₂) ++ more).Perm
        (r.fragments ++ (spansOf l₁ ++ spansOf l₂) ++ more) := (hsplit r).append_right more
    _ = r.fragments ++ ((spansOf l₁ ++ spansOf l₂) ++ more) := append_assoc _ _ _
    Perm _ (r.fragments ++ (more ++ (spansOf l₁ ++ spansOf l₂))) :=
        (perm_append_comm).append_left _
    _ = (r.fragments ++ more) ++ (spansOf l₁ ++ spansOf l₂) := (append_assoc _ _ _).symm
    Perm _ ((gone ++ r'.fragments) ++ (spansOf l₁ ++ spansOf l₂)) := hr.append_right _
    _ = gone ++ (r'.fragments ++ (spansOf l₁ ++ spansOf l₂)) := append_assoc _ _ _
    Perm _ (gone ++ spansOf (l₁ ++ (id, r') :: l₂)) := (hsplit r').symm.append_left gone

theorem spans_slot {pid : ℕ} {s : Slot Key} (h : t.slot key pid = some s) :
    s.table.spans = t.spans := by
  rcases slot_cases h with ⟨-, ht⟩ | ⟨-, -, ht, -⟩
  · rw [ht]
  rw [ht]
  change spansOf (t.byId.emplace _ _).entries = spansOf t.byId.entries
  rcases hold : t.byId.find? t.nextId with - | r
  · rw [Assoc.entries_emplace_of_none hold, spansOf_append]
    exact append_nil _
  · rw [Assoc.emplace_of_some hold]

theorem spans_addFragment :
    (t.spans ++ t.accepted σ (.addFragment key f)).Perm (t.addFragment σ key f).1.spans := by
  rcases hs : t.slot key f.packetId with - | s
  · simp [accepted, addFragment_of_none hs]
  have hspans : (t.addFragment σ key f).1.spans
      = spansOf (s.table.byId.modify s.id fun _ => (s.entry.absorb σ t.cfg f).1).entries := by
    rw [addFragment_of_slot hs]
    split <;> rfl
  have haccepted : t.accepted σ (.addFragment key f)
      = if (s.entry.absorb σ t.cfg f).2.retained then [f] else [] := by
    rw [accepted, addFragment_of_slot hs]
  rw [hspans, haccepted, ← spans_slot hs]
  have hentry : (s.entry.fragments ++
      if (s.entry.absorb σ t.cfg f).2.retained then [f] else []).Perm
        ([] ++ (s.entry.absorb σ t.cfg f).1.fragments) := by
    rw [Reassembly.absorb_fragments]
    split <;> simp
  exact spans_modify (find?_entry s) hentry

theorem spans_retire (t : ReassemblyTable Key) (id : ℕ) :
    ∃ gone : List FragmentSpan, t.spans.Perm (gone ++ (t.retire id).1.spans) ∧
      (t.retire id).2 = gone.map token := by
  rcases retire_cases t id with he | ⟨r, hr, -, -, he⟩
  · exact ⟨[], by rw [he]; rfl, by rw [he]; rfl⟩
  refine ⟨r.fragments, ?_, by rw [he]⟩
  rw [he]
  have hmod : (spansOf t.byId.entries ++ []).Perm
      (r.fragments ++ (t.store id r.retiredEntry).spans) :=
    spans_modify hr (Perm.refl _)
  rwa [append_nil] at hmod

theorem spans_evictStale : t.spans.Perm (spansOf (t.stale now) ++ (t.evictStale now).1.spans) := by
  have hsplit := filter_append_perm (fun e : ℕ × Reassembly => e.2.agedOut t.cfg now)
    t.byId.entries
  refine (hsplit.flatMap_right fun e => e.2.fragments).symm.trans (Eq.subst ?_ (Perm.refl _))
  exact flatMap_append

theorem tokens_evictStale : (t.evictStale now).2.flatMap ReassemblySummary.tokens
    = tracked ((spansOf (t.stale now)).map token) := by
  change ((t.stale now).map fun e => e.2.summary).flatMap _ = _
  rw [tracked, spansOf, map_flatMap, filter_flatMap, flatMap_map]
  rfl

/-- **The spans a call drops.** What was stored and what the call accepts
is what the call drops and what stays stored, and the tracked tokens the
call returns are those of the spans it drops. -/
theorem spans_step (op : Op Key) : ∃ gone : List FragmentSpan,
    (t.spans ++ t.accepted σ op).Perm (gone ++ (t.step σ op).spans) ∧
    tracked (t.returned op) = tracked (gone.map token) := by
  cases op with
  | addFragment key f => exact ⟨[], spans_addFragment, rfl⟩
  | retire id =>
    obtain ⟨gone, hperm, htok⟩ := t.spans_retire id
    exact ⟨gone, by rwa [accepted, append_nil], by rw [returned, htok]⟩
  | evictStale now =>
    refine ⟨spansOf (t.stale now), ?_, ?_⟩
    · rw [accepted, append_nil]
      exact spans_evictStale
    · -- `evict_stale` has already left the untracked tokens out.
      rw [returned, tokens_evictStale, tracked_tracked]

/-! ## Over a run -/

/-- How often a token is attached to one of some spans. -/
def tokenCount (T : Token) (l : List FragmentSpan) : ℕ := (l.map FragmentSpan.token).count T

@[simp] theorem tokenCount_append {l l' : List FragmentSpan} :
    tokenCount T (l ++ l') = tokenCount T l + tokenCount T l' := by
  rw [tokenCount, map_append, count_append, tokenCount, tokenCount]

theorem tokenCount_perm {l l' : List FragmentSpan} (h : l.Perm l') :
    tokenCount T l = tokenCount T l' := (h.map token).count_eq T

theorem tokenCount_step (hT : T ≠ kNoToken) (op : Op Key) :
    tokenCount T t.spans + tokenCount T (t.accepted σ op)
      = (t.returned op).count T + tokenCount T (t.step σ op).spans := by
  obtain ⟨gone, hperm, htok⟩ := spans_step op
  have hgone : (t.returned op).count T = tokenCount T gone := by
    rw [← count_tracked hT, htok, count_tracked hT, tokenCount]
  rw [hgone, ← tokenCount_append, ← tokenCount_append, tokenCount_perm hperm]

theorem tokenCount_addFragment (key : Key) (f : FragmentSpan) (hT : T ≠ kNoToken) :
    tokenCount T (t.addFragment σ key f).1.spans = tokenCount T t.spans +
      if f.token = T then (t.addFragment σ key f).2.retained.toNat else 0 := by
  have hstep : tokenCount T t.spans + tokenCount T (t.accepted σ (.addFragment key f))
      = ([] : List Token).count T + tokenCount T (t.addFragment σ key f).1.spans :=
    tokenCount_step hT (.addFragment key f)
  rw [count_nil, zero_add] at hstep
  rw [← hstep, accepted]
  cases (t.addFragment σ key f).2.retained with
  | false => simp [tokenCount]
  | true => simp [tokenCount, count_singleton]

theorem tokenCount_retire (hT : T ≠ kNoToken) :
    (t.retire id).2.count T + tokenCount T (t.retire id).1.spans = tokenCount T t.spans :=
  (tokenCount_step (σ := .insertion) hT (.retire id)).symm

theorem tokenCount_evictStale (now : ℕ) (hT : T ≠ kNoToken) :
    ((t.evictStale now).2.flatMap ReassemblySummary.tokens).count T
      + tokenCount T (t.evictStale now).1.spans = tokenCount T t.spans :=
  (tokenCount_step (σ := .insertion) hT (.evictStale now)).symm

theorem tokenCount_run (hT : T ≠ kNoToken) (ops : List (Op Key)) :
    tokenCount T t.spans + tokenCount T (acceptedBy σ t ops)
      = (returnedBy σ t ops).count T + tokenCount T (Run.after (step σ) t ops).spans := by
  induction ops generalizing t with
  | nil => simp [acceptedBy, returnedBy, tokenCount]
  | cons op ops ih =>
    have hstep := tokenCount_step (σ := σ) (t := t) hT op
    have hrest := ih (t := t.step σ op)
    rw [acceptedBy, returnedBy, tokenCount_append, count_append, Run.after_cons]
    omega

/-- **Token conservation.** Over every run a tracked token has been accepted, with
a fragment whose call returned `retained`, as many times as it has been returned
and is attached to a stored span together. The call that drops its spans returns
it, once for each; one that no retained fragment carried is never returned. -/
theorem tokens_conserved (σ : ComparisonSort) (cfg : Config) (ops : List (Op Key)) :
    (∀ T, T ≠ kNoToken → tokenCount T (acceptedBy σ (init cfg) ops)
      = (returnedBy σ (init cfg) ops).count T + tokenCount T (after σ cfg ops).spans) ∧
    (∀ pre op post, ops = pre ++ op :: post → ∃ gone : List FragmentSpan,
      ((after σ cfg pre).spans ++ (after σ cfg pre).accepted σ op).Perm
        (gone ++ (after σ cfg (pre ++ [op])).spans) ∧
      tracked ((after σ cfg pre).returned op) = tracked (gone.map FragmentSpan.token)) ∧
    (∀ T, T ≠ kNoToken → T ∉ (acceptedBy σ (init cfg) ops).map FragmentSpan.token →
      T ∉ returnedBy σ (init cfg) ops) := by
  have hcount : ∀ T, T ≠ kNoToken → tokenCount T (acceptedBy σ (init cfg) ops)
      = (returnedBy σ (init cfg) ops).count T + tokenCount T (after σ cfg ops).spans := by
    intro T hT
    have hrun := tokenCount_run (σ := σ) (t := init cfg) hT ops
    have hinit : tokenCount T (init cfg : ReassemblyTable Key).spans = 0 := rfl
    rwa [hinit, zero_add] at hrun
  refine ⟨hcount, ?_, ?_⟩
  · intro pre op post _
    obtain ⟨gone, hperm, htok⟩ := spans_step op
    refine ⟨gone, ?_, htok⟩
    rw [after, after, Run.after_append]
    exact hperm
  · intro T hT hnot hmem
    have hzero : tokenCount T (acceptedBy σ (init cfg) ops) = 0 := count_eq_zero.2 hnot
    have hpos := count_pos_iff.2 hmem
    have := hcount T hT
    omega

end Nanom.Defrag.ReassemblyTable
