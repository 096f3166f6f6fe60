import Nanom.Decode.Session
import Nanom.Defrag.Tokens
/-!
# What a packet does to the reassembly tables

A call of the walk either leaves the tables alone or feeds one fragment to
one of them (`visit_cases`), and a walk makes at most 64 feeding calls
(`countP_feeds_walk`). From these: a packet accounts for the tokens of the
spans it stores and of those it drops (`walk_accounts`).
-/

namespace Nanom

open List Bool

namespace Wire

/-! ## The calls that feed a table -/

/-- The call may feed a fragment. -/
def WalkEvent.feeds : WalkEvent → Bool
  | .ipv4 _ => true
  | .fragment _ => true
  | _ => false

open WalkEvent (feeds)

variable {pkt : Bytes} {off : ℕ}

/-- A call made below L3. -/
def WalkEvent.isL2 : WalkEvent → Bool
  | .offset _ => true
  | .eth _ => true
  | .vlan _ => true
  | .l2Done _ _ => true
  | _ => false

theorem isL2_walkVlan (b : Bytes) (ethertype off : ℕ) :
    ∀ e ∈ (walkVlan b ethertype off).1, e.isL2 = true := by
  induction b, ethertype, off using walkVlan.induct with
  | case1 t₀ t₁ t₂ t₃ rest ethertype off hv tag calls inner he ih =>
    rw [he] at ih
    rw [walkVlan, if_pos hv]
    dsimp only
    rw [he]
    exact forall_mem_cons.2 ⟨rfl, forall_mem_cons.2 ⟨rfl, ih⟩⟩
  | case2 t₀ t₁ t₂ t₃ rest ethertype off hv =>
    rw [walkVlan, if_neg hv]
    exact forall_mem_nil _
  | case3 b ethertype off hb =>
    rw [walkVlan]
    · exact forall_mem_nil _
    · exact hb

theorem countP_feeds_walkVlan (b : Bytes) (ethertype off : ℕ) :
    (walkVlan b ethertype off).1.countP feeds = 0 := by
  refine countP_eq_zero.2 fun e he hfeeds => ?_
  have hl2 := isL2_walkVlan b ethertype off e he
  cases e <;> simp_all [feeds, WalkEvent.isL2]

theorem countP_feeds_walkIpv4 : (walkIpv4 pkt off).1.countP feeds ≤ 1 := by
  unfold walkIpv4
  split
  · exact Nat.zero_le _
  · rw [apply_ite Prod.fst, ite_self]
    exact le_refl 1

theorem countP_feeds_ipv6Options (container lim fuel i : ℕ) :
    (ipv6Options pkt container lim fuel i).countP feeds = 0 := by
  fun_induction ipv6Options pkt container lim fuel i <;> simp_all [feeds]

theorem countP_feeds_srhSegments (stop nseg order : ℕ) :
    (srhSegments pkt off stop nseg order).countP feeds = 0 := by
  simp [srhSegments, feeds]

/-- Each round of the loop over the extension headers feeds at most once. -/
theorem countP_feeds_walkExt (pkt : Bytes) (guard nh off order : ℕ) :
    (walkExt pkt guard nh off order).1.countP feeds ≤ guard := by
  fun_induction walkExt pkt guard nh off order <;>
    simp_all [countP_cons, feeds, forEachIpv6Option, countP_feeds_ipv6Options,
      countP_feeds_srhSegments] <;> omega

theorem countP_feeds_walkIpv6 : (walkIpv6 pkt off).1.countP feeds ≤ 64 := by
  unfold walkIpv6
  split
  · simp
  · rename_i ip _ _
    have := countP_feeds_walkExt pkt 64 ip.nextHeader (off + wireSize Ipv6) 0
    simpa [feeds] using this

theorem countP_feeds_walkL3 (pkt : Bytes) (ethertype off : ℕ) :
    (walkL3 pkt ethertype off).1.countP feeds ≤ 64 := by
  unfold walkL3
  split
  · exact le_trans countP_feeds_walkIpv4 (by decide)
  · split
    · exact countP_feeds_walkIpv6
    · simp

theorem walkL4_cases (pkt : Bytes) (ipProto off : ℕ) :
    (walkL4 pkt ipProto off).1 = [] ∨ (walkL4 pkt ipProto off).1 = [.offset off] ∨
      (∃ tcp, (walkL4 pkt ipProto off).1 = [.offset off, .tcp tcp]) ∨
      ∃ udp, (walkL4 pkt ipProto off).1 = [.offset off, .udp udp] := by
  fun_cases walkL4 pkt ipProto off <;> simp

theorem countP_feeds_walkL4 (pkt : Bytes) (ipProto off : ℕ) :
    (walkL4 pkt ipProto off).1.countP feeds = 0 := by
  rcases walkL4_cases pkt ipProto off with h | h | ⟨_, h⟩ | ⟨_, h⟩ <;> rw [h] <;> rfl

/-- **A packet feeds at most 64 fragments.** -/
theorem countP_feeds_walk (linkType : ℕ) (pkt : Bytes) :
    (walkPacketExt linkType pkt).1.countP feeds ≤ 64 := by
  unfold walkPacketExt
  split
  · simp
  split
  · simp
  rename_i eth rest _
  have htags := countP_feeds_walkVlan rest eth.ethertype (wireSize Ethernet)
  dsimp only
  split
  · simp only [countP_cons, feeds, htags]
    simp
  rename_i ethertype off _
  have hl3 := countP_feeds_walkL3 pkt ethertype off
  split
  · simp only [countP_cons, countP_append, feeds, htags, false_eq_true, if_false]
    omega
  · rename_i ipProto l4Off _
    have hl4 := countP_feeds_walkL4 pkt ipProto l4Off
    simp only [countP_cons, countP_append, feeds, hl4, false_eq_true, if_false]
    omega

end Wire

namespace Decode

open Wire Defrag ReassemblyTable
open WalkEvent (feeds)

variable {σ : ComparisonSort} {env : VisitorEnv} {c : DecodeCtx}

/-! ## Feeding one table -/

section Feed

variable {Key : Type} [DecidableEq Key] {table : ReassemblyTable Key} {key : Key}
variable {f : FragmentSpan} {ipVersion ipProto : ℕ} {fragRow : ℕ → Row}
variable (σ env c table key f ipVersion ipProto fragRow)

/-- The table after a fragment: the fragment was added, and a datagram it
completed may have been retired. -/
theorem feedTable_table : let fed := feedTable σ env c table key f ipVersion ipProto fragRow
    (fed.table = (table.addFragment σ key f).1 ∧ fed.freed = []) ∨
    (fed.table = ((table.addFragment σ key f).1.retire (table.addFragment σ key f).2.datagramId).1 ∧
      fed.freed =
        ((table.addFragment σ key f).1.retire (table.addFragment σ key f).2.datagramId).2) := by
  unfold feedTable completeDatagram
  dsimp only
  split
  · split
    · exact .inr ⟨rfl, rfl⟩
    · exact .inl ⟨rfl, rfl⟩
  · exact .inl ⟨rfl, rfl⟩

theorem feedTable_retained : (feedTable σ env c table key f ipVersion ipProto fragRow).retained
    = (table.addFragment σ key f).2.retained := by
  unfold feedTable
  dsimp only
  split <;> rfl

/-- **A fragment accounts for its token and for those it frees.** -/
theorem feedTable_tokens {T : Token} (hT : T ≠ kNoToken) :
    let fed := feedTable σ env c table key f ipVersion ipProto fragRow
    fed.freed.count T + tokenCount T fed.table.spans
      = tokenCount T table.spans + if f.token = T then fed.retained.toNat else 0 := by
  have hadd := tokenCount_addFragment (σ := σ) (t := table) key f hT
  dsimp only
  rw [feedTable_retained, ← hadd]
  rcases feedTable_table σ env c table key f ipVersion ipProto fragRow with ⟨ht, hf⟩ | ⟨ht, hf⟩
  · rw [ht, hf, count_nil, zero_add]
  · rw [ht, hf, tokenCount_retire hT]

end Feed

/-! ## One call of the walk -/

/-- The spans of both tables that carry a token. -/
def held (T : Token) (d : DefragState) : ℕ := tokenCount T d.ipv4.spans + tokenCount T d.ipv6.spans

namespace Visitor

variable (σ : ComparisonSort) (env : VisitorEnv) (v : Visitor)

@[simp] theorem packetId_visit (e : WalkEvent) :
    (v.visit σ env e).ctx.packetId = v.ctx.packetId := by
  cases e <;> simp only [visit]
  case l2Done ethertype l2End =>
    unfold onL2Done
    dsimp only
    split <;> rfl
  case ipv4 ip =>
    unfold onIpv4
    dsimp only
    split
    · rfl
    · split <;> rfl
  case tcp h =>
    unfold onTcp
    split <;> rfl
  case udp h =>
    unfold onUdp
    split <;> rfl
  case fragment h =>
    unfold onFragment
    dsimp only
    split
    · rfl
    · split <;> rfl
  all_goals rfl

/-- The tables, the pins and the retired tokens are left alone. -/
def Untouched (w : Visitor) : Prop :=
  w.defrag = v.defrag ∧ w.pinCount = v.pinCount ∧ w.retiredTokens = v.retiredTokens

/-- The IPv4 table has been fed a fragment of the packet. -/
def FedIpv4 (w : Visitor) : Prop :=
  ∃ c key f ipProto fragRow, f.token = env.token ∧ f.packetId = v.ctx.packetId ∧
    let fed := feedTable σ env c v.defrag.ipv4 key f 4 ipProto fragRow
    w.defrag = ⟨fed.table, v.defrag.ipv6⟩ ∧
    w.pinCount = (if fed.retained then u32 (v.pinCount + 1) else v.pinCount) ∧
    w.retiredTokens = v.retiredTokens ++ fed.freed

/-- The IPv6 table has been fed a fragment of the packet. -/
def FedIpv6 (w : Visitor) : Prop :=
  ∃ c key f ipProto fragRow, f.token = env.token ∧ f.packetId = v.ctx.packetId ∧
    let fed := feedTable σ env c v.defrag.ipv6 key f 6 ipProto fragRow
    w.defrag = ⟨v.defrag.ipv4, fed.table⟩ ∧
    w.pinCount = (if fed.retained then u32 (v.pinCount + 1) else v.pinCount) ∧
    w.retiredTokens = v.retiredTokens ++ fed.freed

/-- **What a call of the walk does to the tables**: nothing, or it feeds a
fragment to one of them. -/
theorem visit_cases (e : WalkEvent) :
    v.Untouched (v.visit σ env e) ∨
    (∃ ip, e = .ipv4 ip ∧ eligible ip = true ∧ env.defrags = true ∧
      v.FedIpv4 σ env (v.visit σ env e)) ∨
    (∃ h, e = .fragment h ∧ env.defrags = true ∧ v.FedIpv6 σ env (v.visit σ env e)) := by
  cases e <;> simp only [visit]
  case l2Done ethertype l2End =>
    unfold onL2Done
    dsimp only
    split <;> exact .inl ⟨rfl, rfl, rfl⟩
  case ipv4 ip =>
    unfold onIpv4
    dsimp only
    split
    · exact .inl ⟨rfl, rfl, rfl⟩
    rename_i hel
    have hel' : eligible ip = true ∧ env.defrags = true := by simpa using hel
    split
    · exact .inl ⟨rfl, rfl, rfl⟩
    · exact .inr (.inl ⟨ip, rfl, hel'.1, hel'.2, _, _, _, _, _, rfl, rfl, rfl, rfl, rfl⟩)
  case tcp h =>
    unfold onTcp
    split <;> exact .inl ⟨rfl, rfl, rfl⟩
  case udp h =>
    unfold onUdp
    split <;> exact .inl ⟨rfl, rfl, rfl⟩
  case fragment h =>
    unfold onFragment
    dsimp only
    split
    · exact .inl ⟨rfl, rfl, rfl⟩
    rename_i hon
    have hon' : env.defrags = true := by simpa using hon
    split
    · exact .inl ⟨rfl, rfl, rfl⟩
    · exact .inr (.inr ⟨h, rfl, hon', _, _, _, _, _, rfl, rfl, rfl, rfl, rfl⟩)
  all_goals exact .inl ⟨rfl, rfl, rfl⟩

/-! ## What a packet accounts for -/

/-- Between two states of a visit `k` spans were pinned, and the spans of
every tracked token, stored or freed, are accounted for. -/
structure Accounts (env : VisitorEnv) (v w : Visitor) (k : ℕ) : Prop where
  pins : v.pinCount + k < 2 ^ 32 → w.pinCount = v.pinCount + k
  tokens : ∀ T, T ≠ kNoToken → held T w.defrag + w.retiredTokens.count T
    = held T v.defrag + v.retiredTokens.count T + if env.token = T then k else 0

variable {σ env v} {w x : Visitor} {j k : ℕ}

theorem Untouched.accounts (h : v.Untouched w) : Accounts env v w 0 :=
  ⟨fun _ => h.2.1, fun T _ => by rw [h.1, h.2.2, ite_self, add_zero]⟩

theorem Accounts.trans (h : Accounts env v w j) (h' : Accounts env w x k) :
    Accounts env v x (j + k) := by
  refine ⟨fun hlt => ?_, fun T hT => ?_⟩
  · rw [h'.pins (by rw [h.pins (by omega)]; omega), h.pins (by omega), add_assoc]
  · rw [h'.tokens T hT, h.tokens T hT]
    split <;> omega

theorem pinCount_took {retained : Bool}
    (h : w.pinCount = if retained then u32 (v.pinCount + 1) else v.pinCount)
    (hlt : v.pinCount + retained.toNat < 2 ^ 32) : w.pinCount = v.pinCount + retained.toNat := by
  cases retained with
  | false => exact h
  | true => exact h.trans (u32_of_lt hlt)

theorem FedIpv4.accounts (h : v.FedIpv4 σ env w) : ∃ k ≤ 1, Accounts env v w k := by
  obtain ⟨c, key, f, ipProto, fragRow, htok, -, hd, hp, hr⟩ := h
  refine ⟨_, toNat_le _, pinCount_took hp, fun T hT => ?_⟩
  have hcount := feedTable_tokens σ env c v.defrag.ipv4 key f 4 ipProto fragRow hT
  rw [htok] at hcount
  rw [hd, hr, count_append, held, held]
  dsimp only at hcount ⊢
  omega

theorem FedIpv6.accounts (h : v.FedIpv6 σ env w) : ∃ k ≤ 1, Accounts env v w k := by
  obtain ⟨c, key, f, ipProto, fragRow, htok, -, hd, hp, hr⟩ := h
  refine ⟨_, toNat_le _, pinCount_took hp, fun T hT => ?_⟩
  have hcount := feedTable_tokens σ env c v.defrag.ipv6 key f 6 ipProto fragRow hT
  rw [htok] at hcount
  rw [hd, hr, count_append, held, held]
  dsimp only at hcount ⊢
  omega

section

variable (σ : ComparisonSort) (env : VisitorEnv) (v : Visitor)

theorem visit_accounts (e : WalkEvent) :
    ∃ k ≤ (if e.feeds then 1 else 0), Accounts env v (v.visit σ env e) k := by
  rcases visit_cases σ env v e with h | ⟨ip, rfl, -, -, h⟩ | ⟨h, rfl, -, hfed⟩
  · exact ⟨0, Nat.zero_le _, h.accounts⟩
  · exact h.accounts
  · exact hfed.accounts

/-- **A packet accounts for its own token and for those it frees.** It
pins at most one span for each of its calls that may feed one. -/
theorem walk_accounts (calls : List WalkEvent) :
    ∃ k ≤ calls.countP feeds, Accounts env v (v.walk σ env calls) k := by
  induction calls generalizing v with
  | nil => exact ⟨0, Nat.zero_le _, fun _ => rfl, fun T _ => by rw [ite_self]; rfl⟩
  | cons e calls ih =>
    obtain ⟨j, hj, hstep⟩ := visit_accounts σ env v e
    obtain ⟨k, hk, hrest⟩ := ih (v.visit σ env e)
    refine ⟨j + k, ?_, hstep.trans hrest⟩
    rw [countP_cons]
    omega

end

end Visitor

end Decode

end Nanom
