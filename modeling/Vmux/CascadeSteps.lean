import Vmux.CascadeTermination
import Vmux.TxByteExact
import Vmux.TxTermination

namespace Vmux.CascadeSteps

open Bytes CircularWindow DescriptorQueue LanTx TxTermination TxByteExact
open TxUnits (triggerTxPacket_sent)

section

variable {env : Env TxEnv} {c c' : Config TxClient Unit} {cmd : Cmd Unit} {rest : List (Cmd Unit)} {sent : Sent}

def unsent (c : Config TxClient Unit) : ℕ := remaining c.client.tso (ready c)

def txMeasure (c : Config TxClient Unit) : (ℕ ×ₗ ℕ) ×ₗ ℕ := toLex (measure (fun _ => 0) c, unsent c)

/-- A turn of the loop in `trigger_tx` that sends something. -/
structure TxTurn (accept : ℕ → Bool) (rest : List (Cmd Unit)) (c c' : Config TxClient Unit) (sent : Sent) : Prop where
  packet : triggerTxPacket accept c.client.tso (ready c) = .ok (some sent)
  tso : c'.client.tso = sent.tso
  segments : c'.client.readySegments = c.client.readySegments.drop sent.popped
  stack : c'.stack = .resume () :: rest
  ring : c'.q.ring = c.q.ring
  states : ∀ p, (p ∉ c.client.readySegments.take sent.popped ∧ c'.q.states p = c.q.states p) ∨
    (p ∈ c.client.readySegments.take sent.popped ∧ c.q.states p = .processing ∧ c'.q.states p = .processed)
  still : sent.popped = 0 → c'.q = c.q

theorem turn_cases (h : exec LanTx.subclass env { c with stack := rest } (.resume ()) = .ok c') :
    (triggerTxPacket env.client.accept c.client.tso (ready c) = .ok none ∧ c' = { c with stack := rest }) ∨
      ∃ sent, TxTurn env.client.accept rest c c' sent := by
  obtain ⟨e, hr, ha⟩ := resume_ok h
  obtain ⟨r, hp, hr⟩ := bind_ok hr
  cases r with
  | none =>
    cases hr
    obtain ⟨q, hq, rfl⟩ := applyEffect_ok ha
    cases hq
    refine .inl ⟨hp, ?_⟩
    simp [setDatas, setDescs]
  | some sent =>
    cases hr
    have hap := applyEffect_applied ha
    refine .inr ⟨sent, hp, ?_, ?_, hap.stack, hap.ring, hap.states, fun hz => ?_⟩
    · rw [hap.client]
    · rw [hap.client]
    · obtain ⟨q, hq, rfl⟩ := applyEffect_ok ha
      rw [hz, List.take_zero] at hq
      cases hq
      rfl

/-- A turn that gets on frees a context or sends bytes of the unit. -/
theorem TxTurn.measure_lt {accept : ℕ → Bool} (h : TxTurn accept rest c c' sent) (hs : c.stack = .resume () :: rest)
    (hm : Moves accept c.client.tso (ready c)) : txMeasure c' < txMeasure c := by
  have hdec := (sent_decreases_iff h.packet).mpr hm
  by_cases hz : sent.popped = 0
  · have hready : ready c' = ready c := by rw [ready, ready, h.segments, hz, List.drop_zero, h.still hz]
    have hsame : measure (fun _ => 0) c' = measure (fun _ => 0) c := by
      rw [DescriptorQueue.measure, DescriptorQueue.measure, h.still hz, h.stack, hs]
    rw [hz, decreases_stay] at hdec
    refine Prod.Lex.toLex_lt_toLex.mpr (.inr ⟨hsame, ?_⟩)
    rw [unsent, unsent, hready, h.tso]
    exact hdec
  · obtain ⟨s, tail, -, -, -, hready, -⟩ := triggerTxPacket_sent h.packet
    obtain ⟨p, ps, hsegs⟩ : ∃ p ps, c.client.readySegments = p :: ps := by
      cases hsegs : c.client.readySegments with
      | nil =>
        rw [ready, hsegs] at hready
        cases hready
      | cons p ps => exact ⟨p, ps, rfl⟩
    have hp : p ∈ c.client.readySegments.take sent.popped := by
      obtain ⟨n, hn⟩ := Nat.exists_eq_succ_of_ne_zero hz
      rw [hsegs, hn]
      exact List.mem_cons_self
    refine Prod.Lex.toLex_lt_toLex.mpr (.inl (measure_lt_of_potential (potential_lt h.ring (rankSum_lt (fun r => ?_) p ?_))))
    · rcases h.states r with ⟨-, hr⟩ | ⟨-, hr, hr'⟩
      · rw [hr]
      · rw [hr, hr']
        decide
    · rcases h.states p with ⟨hn, -⟩ | ⟨-, hr, hr'⟩
      · exact absurd hp hn
      · rw [hr, hr']
        decide

theorem exec_txMeasure (hi : Inv LanTx.subclass c) (hs : c.stack = cmd :: rest)
    (h : exec LanTx.subclass env { c with stack := rest } cmd = .ok c')
    (hm : ∀ sent, cmd = .resume () → triggerTxPacket env.client.accept c.client.tso (ready c) = .ok (some sent) →
      Moves env.client.accept c.client.tso (ready c)) : txMeasure c' < txMeasure c := by
  by_cases hk : cmd = .resume ()
  · subst hk
    rcases turn_cases h with ⟨-, rfl⟩ | ⟨sent, ht⟩
    · refine Prod.Lex.toLex_lt_toLex.mpr (.inl (measure_lt_of_weight le_rfl ?_))
      rw [hs, stackWeight_cons]
      exact Nat.lt_add_of_pos_left (Nat.succ_pos _)
    · exact ht.measure_lt hs (hm sent rfl ht.packet)
  · have hc : ({ c with stack := cmd :: rest } : Config TxClient Unit) = c := by rw [← hs]
    have hlt : DescriptorQueue.measure (fun _ => 0) c' <
        DescriptorQueue.measure (fun _ => 0) ({ c with stack := cmd :: rest } : Config TxClient Unit) :=
      exec_queue_measure (hi.running hs) (fun pos n hw => hi.settled.front pos n rest (hw ▸ hs)) (fun _ => hk) h
    rw [hc] at hlt
    exact Prod.Lex.toLex_lt_toLex.mpr (.inl hlt)

end

section

variable {ε ι σ κ : Type} {S : Subclass ε ι σ κ} {env : Env ε} {c c' d : Config σ κ} {cmd : Cmd κ} {rest : List (Cmd κ)}
  {k m : ℕ}

/-- From one state to another the queue has fetched the next `k` descriptors of its ring. -/
structure Advance (c c' : Config σ κ) (k : ℕ) : Prop where
  len : c'.q.len = c.q.len
  descLen : c'.q.descLen = c.q.descLen
  enabled : c'.q.enabled = c.q.enabled
  next : c'.q.nextIdx = (c.q.nextIdx + k) % c.q.len
  left : k + c'.q.toFetch = c.q.toFetch
  off : c.q.enabled = false → k = 0
  log : ∃ new, c'.log = c.log ++ new ∧
    (fetched c.q.descLen new).map Turn.idx = (List.range k).map fun i => (c.q.nextIdx + i) % c.q.len

theorem Advance.of_ring (hr : c'.q.ring = c.q.ring) (hn : c'.q.nextIdx = c.q.nextIdx) {new : List Event}
    (hl : c'.log = c.log ++ new) (hf : fetched c.q.descLen new = []) : Advance c c' 0 where
  len := congrArg Ring.len hr
  descLen := congrArg Ring.descLen hr
  enabled := congrArg Ring.enabled hr
  next := by rw [hn, QueueBase.nextIdx, Nat.add_zero, Nat.mod_mod]
  left := by rw [QueueBase.toFetch_congr hr, Nat.zero_add]
  off _ := rfl
  log := ⟨new, hl, by rw [hf]; rfl⟩

theorem Advance.same (hq : c'.q = c.q) (hl : c'.log = c.log) : Advance c c' 0 :=
  .of_ring (by rw [hq]) (by rw [hq]) (hl.trans (List.append_nil _).symm) rfl

theorem Advance.trans (h : Advance c c' k) (h' : Advance c' d m) : Advance c d (k + m) where
  len := h'.len.trans h.len
  descLen := h'.descLen.trans h.descLen
  enabled := h'.enabled.trans h.enabled
  next := by rw [h'.next, h.next, h.len, Nat.mod_add_mod, Nat.add_assoc]
  left := by rw [Nat.add_assoc, h'.left, h.left]
  off hoff := by rw [h.off hoff, h'.off (h.enabled.trans hoff)]
  log := by
    obtain ⟨a, ha, hfa⟩ := h.log
    obtain ⟨b, hb, hfb⟩ := h'.log
    refine ⟨a ++ b, by rw [hb, ha, List.append_assoc], ?_⟩
    rw [h.descLen, h.next, h.len] at hfb
    rw [fetched, ringLog_append, List.flatMap_append, List.map_append, List.range_add, List.map_append, List.map_map]
    refine congr_arg₂ _ hfa (hfb.trans ?_)
    refine List.map_congr_left fun i _ => ?_
    rw [Nat.mod_add_mod, Nat.add_assoc]
    rfl

/-- From one state to another no slot of the ring is fetched twice. -/
def FetchesOnce (c c' : Config σ κ) : Prop :=
  ∃ new, c'.log = c.log ++ new ∧ ((fetched c.q.descLen new).map Turn.idx).Nodup

theorem Advance.once (h : Advance c c' k) (hlt : c.q.enabled = true → 0 < c.q.len ∧ c.q.len < 0x4000) :
    FetchesOnce c c' := by
  obtain ⟨new, hl, hf⟩ := h.log
  refine ⟨new, hl, ?_⟩
  rw [hf]
  by_cases he : c.q.enabled = true
  · obtain ⟨hpos, hmax⟩ := hlt he
    have hk : k < c.q.len := by
      have := c.q.toFetch_lt hpos hmax
      have := h.left
      omega
    refine List.Nodup.map_on ?_ List.nodup_range
    intro i hi j hj hij
    rw [List.mem_range] at hi hj
    have hmod : i % c.q.len = j % c.q.len := Nat.ModEq.add_left_cancel' c.q.nextIdx hij
    rwa [Nat.mod_eq_of_lt (hi.trans hk), Nat.mod_eq_of_lt (hj.trans hk)] at hmod
  · rw [h.off (by simpa using he)]
    exact List.nodup_nil

theorem exec_advance (hi : Inv S c) (hs : c.stack = cmd :: rest) (h : exec S env { c with stack := rest } cmd = .ok c') :
    ∃ k, Advance c c' k := by
  have hpos : 0 < c.q.len := Nat.lt_of_le_of_lt (Nat.zero_le _) hi.window.idx_lt
  obtain ⟨new, hl⟩ := exec_log (c := { c with stack := rest }) hi.enabled h
  change c'.log = c.log ++ new at hl
  have hnew : ∀ evs, ringLog c'.log = ringLog c.log ++ evs → ringLog new = evs := by
    intro evs he
    rw [hl, ringLog_append] at he
    exact List.append_cancel_left he
  rcases exec_ring (c := { c with stack := rest }) hi.enabled h with ⟨-, hr, hlog, -⟩ | ⟨rfl, -, hr, hlog, -⟩ |
    ⟨rfl, -, hr, hlog, -⟩ | ⟨pos, n, rfl, hq, hlog, -⟩
  · have hf : fetched c.q.descLen new = [] := by
      rw [fetched, hnew [] (hlog.trans (List.append_nil _).symm)]
      rfl
    exact ⟨0, .of_ring hr (QueueBase.nextIdx_congr hr) hl hf⟩
  · have hle := (fetchCnt_bounds c.q hpos).2.2
    refine ⟨c.q.fetchCnt, congrArg Ring.len hr, congrArg Ring.descLen hr, congrArg Ring.enabled hr,
      QueueBase.nextIdx_fetch hr, ?_, fun hoff => ?_, new, hl, ?_⟩
    · rw [Nat.add_comm]
      exact QueueBase.toFetch_fetch hpos hi.len_lt hr
    · rw [hi.enabled] at hoff
      cases hoff
    · rw [fetched, hnew _ hlog, List.flatMap_singleton]
      change (batch _ _ _ _ _).map Turn.idx = _
      rw [batch, List.map_map]
      refine List.map_congr_left fun i hi => ?_
      rw [List.mem_range] at hi
      exact (Nat.mod_eq_of_lt (Nat.lt_of_lt_of_le (Nat.add_lt_add_left hi _) hle)).symm
  · have hf : fetched c.q.descLen new = [] := by
      rw [fetched, hnew _ hlog, List.flatMap_singleton]
      unfold writebackEvent
      split <;> rfl
    exact ⟨0, .of_ring hr (QueueBase.nextIdx_congr hr) hl hf⟩
  · obtain ⟨rfl, hn⟩ := hi.settled.front pos n rest hs
    have hb := bumpCnt_eq hi.window.cnt_le hn hi.settled.states
    have hf : fetched c.q.descLen new = [] := by
      rw [fetched, hnew [] (hlog.trans (List.append_nil _).symm)]
      rfl
    have hnext : c'.q.nextIdx = c.q.nextIdx := by
      rw [hq]
      exact QueueBase.nextIdx_bump hn hb
    have hleft : c'.q.toFetch = c.q.toFetch := by
      rw [hq]
      exact QueueBase.toFetch_bump hn hb
    refine ⟨0, by rw [hq]; rfl, by rw [hq]; rfl, by rw [hq]; rfl, ?_, by rw [hleft, Nat.zero_add], fun _ => rfl, new, hl,
      by rw [hf]; rfl⟩
    rw [hnext, QueueBase.nextIdx, Nat.add_zero, Nat.mod_mod]

end

end Vmux.CascadeSteps
