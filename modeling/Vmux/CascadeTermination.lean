import Vmux.RingSteps
import Vmux.LanRx
import Vmux.AdminQueue

namespace Vmux.DescriptorQueue

open Bytes CircularWindow Transitions Ownership

/-- The tail as `trigger_fetch` reads it. -/
def QueueBase.tail32 (q : QueueBase) : ℕ := q.regTail % 0x100000000

/-- How many descriptors `trigger_fetch` still fetches before it finds none available: up to
where the count given by the tail ends, or to the end of the ring and from its start to the tail. -/
def QueueBase.toFetch (q : QueueBase) : ℕ :=
  if q.nextIdx + q.descAvail < q.len then q.descAvail else q.len - q.nextIdx + q.tail32 % q.len

theorem sub32_tail (t n : ℕ) (hn : n < 0x4000) :
    sub32 t n = if n ≤ t % 0x100000000 then t % 0x100000000 - n else t % 0x100000000 + 0x100000000 - n := by
  unfold sub32
  split <;> omega

theorem sub_mod {x n k : ℕ} (h : k ≤ x % n) : (x - k) % n = x % n - k := by
  rcases Nat.eq_zero_or_pos n with rfl | hn
  · simp
  · have hlt := Nat.mod_lt x hn
    have hdiv := Nat.div_add_mod x n
    have hx : x - k = n * (x / n) + (x % n - k) := by omega
    rw [hx, Nat.mul_add_mod, Nat.mod_eq_of_lt (by omega)]

section

variable {q q' : QueueBase}

theorem QueueBase.nextIdx_congr (h : q'.ring = q.ring) : q'.nextIdx = q.nextIdx := by
  obtain ⟨-, h2, -, -, -, -, h7, h8⟩ := Ring.mk.inj h
  simp only [nextIdx, h2, h7, h8]

theorem QueueBase.toFetch_congr (h : q'.ring = q.ring) : q'.toFetch = q.toFetch := by
  have hn := nextIdx_congr h
  obtain ⟨-, h2, -, h4, -, -, -, -⟩ := Ring.mk.inj h
  have ha : q'.descAvail = q.descAvail := by simp only [descAvail, hn, h2, h4]
  have ht : q'.tail32 = q.tail32 := congrArg (· % 0x100000000) h4
  have hl : q'.len = q.len := h2
  rw [toFetch, toFetch, hn, ha, ht, hl]

theorem QueueBase.toFetch_lt (q : QueueBase) (hl : 0 < q.len) (hlt : q.len < 0x4000) : q.toFetch < q.len := by
  have hn : q.nextIdx < q.len := Nat.mod_lt _ hl
  have ha : q.descAvail < q.len := Nat.mod_lt _ hl
  unfold toFetch
  split
  · exact ha
  · rename_i hend
    have hback : q.tail32 % q.len < q.nextIdx := by
      by_cases hle : q.nextIdx ≤ q.tail32
      · have hx : sub32 q.regTail q.nextIdx = q.tail32 - q.nextIdx := by
          rw [sub32_tail _ _ (by omega)]
          exact if_pos hle
        have hdiv := Nat.div_add_mod (q.tail32 - q.nextIdx) q.len
        have hmod : (q.tail32 - q.nextIdx) % q.len = q.descAvail := by rw [descAvail, hx]
        have htail : q.tail32 = q.nextIdx + q.descAvail - q.len + q.len * ((q.tail32 - q.nextIdx) / q.len + 1) := by
          rw [Nat.mul_add, Nat.mul_one]
          omega
        rw [htail, Nat.add_mul_mod_self_left, Nat.mod_eq_of_lt (by omega)]
        omega
      · rw [Nat.mod_eq_of_lt (by omega)]
        omega
    omega

theorem QueueBase.nextIdx_fetch (h : q'.ring = { q.ring with cnt := q.activeCnt + q.fetchCnt }) :
    q'.nextIdx = (q.nextIdx + q.fetchCnt) % q.len := by
  obtain ⟨-, h2, -, -, -, -, h7, h8⟩ := Ring.mk.inj h
  have hn : q'.nextIdx = (q.activeFirstIdx + (q.activeCnt + q.fetchCnt)) % q.len := by
    simp only [nextIdx, h2, h7, h8]
    rfl
  rw [hn, nextIdx, Nat.mod_add_mod, Nat.add_assoc]

theorem QueueBase.toFetch_fetch (hl : 0 < q.len) (hlt : q.len < 0x4000)
    (h : q'.ring = { q.ring with cnt := q.activeCnt + q.fetchCnt }) : q'.toFetch + q.fetchCnt = q.toFetch := by
  obtain ⟨-, h2, -, h4, -, -, -, -⟩ := Ring.mk.inj h
  obtain ⟨hle, -, hend⟩ := fetchCnt_bounds q hl
  have hn : q.nextIdx < q.len := Nat.mod_lt _ hl
  have ht : q'.tail32 = q.tail32 := congrArg (· % 0x100000000) h4
  have hl2 : q'.len = q.len := h2
  have hnext := nextIdx_fetch h
  by_cases hwrap : q.nextIdx + q.fetchCnt = q.len
  · have hzero : q'.nextIdx = 0 := by rw [hnext, hwrap, Nat.mod_self]
    have havail : q'.descAvail = q.tail32 % q.len := by
      rw [descAvail, hzero, sub32_tail _ _ (by omega), if_pos (Nat.zero_le _), Nat.sub_zero, hl2]
      exact congrArg (· % q.len) ht
    have := Nat.mod_lt q.tail32 hl
    rw [toFetch, toFetch, hzero, havail, hl2, Nat.zero_add, if_pos this, if_neg (by omega)]
    omega
  · have hstay : q'.nextIdx = q.nextIdx + q.fetchCnt := by rw [hnext, Nat.mod_eq_of_lt (by omega)]
    have havail : q'.descAvail = q.descAvail - q.fetchCnt := by
      have hx : sub32 q'.regTail q'.nextIdx = sub32 q.regTail q.nextIdx - q.fetchCnt := by
        have hdiff : q.fetchCnt ≤ sub32 q.regTail q.nextIdx := hle.trans (Nat.mod_le _ _)
        have ht' : q'.regTail % 0x100000000 = q.regTail % 0x100000000 := ht
        rw [sub32_tail _ _ (by omega)] at hdiff
        rw [hstay, sub32_tail _ _ (by omega), sub32_tail _ _ (by omega), ht']
        have := Nat.mod_lt q.regTail (show 0 < 0x100000000 by decide)
        split at hdiff <;> split <;> omega
      rw [descAvail, hx, hl2, sub_mod hle]
      rfl
    rw [toFetch, toFetch, havail, hstay, hl2, ht]
    have : q.nextIdx + q.fetchCnt + (q.descAvail - q.fetchCnt) = q.nextIdx + q.descAvail := by omega
    rw [this]
    split <;> omega

theorem QueueBase.nextIdx_bump {n : ℕ} (hn : n ≤ q.activeCnt)
    (hb : (q.markRange q.activeFirstPos n .writtenBack).bumpCnt = n) :
    (q.markRange q.activeFirstPos n .writtenBack).bump.nextIdx = q.nextIdx := by
  simp only [nextIdx, bump, hb]
  change ((q.activeFirstIdx + n) % q.len + (q.activeCnt - n)) % q.len = _
  rw [Nat.mod_add_mod]
  congr 1
  omega

theorem QueueBase.toFetch_bump {n : ℕ} (hn : n ≤ q.activeCnt)
    (hb : (q.markRange q.activeFirstPos n .writtenBack).bumpCnt = n) :
    (q.markRange q.activeFirstPos n .writtenBack).bump.toFetch = q.toFetch := by
  have hnext := nextIdx_bump hn hb
  have ha : (q.markRange q.activeFirstPos n .writtenBack).bump.descAvail = q.descAvail := by
    rw [descAvail, hnext]
    rfl
  rw [toFetch, toFetch, hnext, ha]
  rfl

end

/-- How far a context is from being free again. -/
def DescState.rank : DescState → ℕ
  | empty => 0 | fetching => 7 | preparing => 6 | prepared => 5
  | processing => 4 | processed => 3 | writingBack => 2 | writtenBack => 1

def rankSum (st : Slot → DescState) : ℕ := ∑ p, (st p).rank

theorem rankSum_le {st st' : Slot → DescState} (h : ∀ p, (st' p).rank ≤ (st p).rank) : rankSum st' ≤ rankSum st :=
  Finset.sum_le_sum fun p _ => h p

theorem rankSum_lt {st st' : Slot → DescState} (h : ∀ p, (st' p).rank ≤ (st p).rank) (r : Slot)
    (hr : (st' r).rank < (st r).rank) : rankSum st' < rankSum st :=
  Finset.sum_lt_sum (fun p _ => h p) ⟨r, Finset.mem_univ r, hr⟩

theorem rankSum_update {st : Slot → DescState} {p : Slot} {s : DescState} (h : s.rank < (st p).rank) :
    rankSum (Function.update st p s) < rankSum st := by
  refine rankSum_lt (fun r => ?_) p (by rwa [Function.update_self])
  by_cases hr : r = p
  · subst hr
    rw [Function.update_self]
    exact h.le
  · rw [Function.update_of_ne hr]

theorem rankSum_range {st st' : Slot → DescState} {first n k : ℕ} (hout : ∀ p, ¬offset first p < n → st' p = st p)
    (hin : ∀ p, offset first p < n → (st' p).rank ≤ k) : rankSum st' ≤ rankSum st + k * n := by
  have hp : ∀ p, (st' p).rank ≤ (st p).rank + if offset first p < n then k else 0 := by
    intro p
    split
    · exact (hin p ‹_›).trans (Nat.le_add_left _ _)
    · rw [hout p ‹_›, Nat.add_zero]
  have hcard : (Finset.univ.filter fun p : Slot => offset first p < n).card ≤ n := by
    have hinj : Set.InjOn (offset (n := maxActiveDescs) first) (Finset.univ.filter fun p : Slot => offset first p < n) := by
      intro a _ b _ hab
      rw [← slot_offset first a, ← slot_offset first b, hab]
    have hmap : ∀ p ∈ Finset.univ.filter fun p : Slot => offset first p < n, offset first p ∈ Finset.range n := by
      intro p hp
      exact Finset.mem_range.mpr (Finset.mem_filter.mp hp).2
    have := Finset.card_le_card_of_injOn _ hmap hinj
    rwa [Finset.card_range] at this
  calc rankSum st' ≤ ∑ p, ((st p).rank + if offset first p < n then k else 0) := Finset.sum_le_sum fun p _ => hp p
    _ = rankSum st + (Finset.univ.filter fun p : Slot => offset first p < n).card * k := by
      rw [Finset.sum_add_distrib, ← Finset.sum_filter, Finset.sum_const, smul_eq_mul]
      rfl
    _ ≤ rankSum st + k * n := by
      rw [Nat.mul_comm k n]
      exact Nat.add_le_add_left (Nat.mul_le_mul_right k hcard) _

/-- What is left to do: descriptors to fetch, and contexts to bring back to the start. -/
def QueueBase.potential (q : QueueBase) : ℕ := 8 * q.toFetch + rankSum q.states

section

variable {ε ι σ κ : Type} {S : Subclass ε ι σ κ} {env : Env ε} {c c' : Config σ κ} {rest : List (Cmd κ)}

/-- A bound on what a command may still push without changing a context. -/
def Cmd.weight (size : κ → ℕ) : Cmd κ → ℕ
  | .triggerFetch | .triggerWriteback | .processLoop _ _ | .dataWritten _ => 1
  | .triggerProcess => 2
  | .fetchDone _ _ _ _ | .writebackDone _ _ => 5
  | .dataFetch _ _ off total => 1 + (total - off)
  | .resume k => 2 * size k + 2

def stackWeight (size : κ → ℕ) (stack : List (Cmd κ)) : ℕ := (stack.map (Cmd.weight size)).sum

def measure (size : κ → ℕ) (c : Config σ κ) : ℕ ×ₗ ℕ := toLex (c.q.potential, stackWeight size c.stack)

/-- The loops of the subclass come to an end: each turn leaves a smaller rest. -/
def Shrinks (S : Subclass ε ι σ κ) (size : κ → ℕ) : Prop :=
  ∀ env s ctxs k e, S.resume env s ctxs k = .ok e → ∀ k' ∈ e.next, size k' < size k

theorem measure_lt_of_potential {size : κ → ℕ} (h : c'.q.potential < c.q.potential) : measure size c' < measure size c :=
  Prod.Lex.toLex_lt_toLex.mpr (.inl h)

theorem measure_lt_of_weight {size : κ → ℕ} (h : c'.q.potential ≤ c.q.potential)
    (hw : stackWeight size c'.stack < stackWeight size c.stack) : measure size c' < measure size c := by
  rcases h.lt_or_eq with h | h
  · exact measure_lt_of_potential h
  · exact Prod.Lex.toLex_lt_toLex.mpr (.inr ⟨h, hw⟩)

theorem stackWeight_cons (size : κ → ℕ) (cmd : Cmd κ) (rest : List (Cmd κ)) :
    stackWeight size (cmd :: rest) = cmd.weight size + stackWeight size rest := by
  simp [stackWeight]

theorem stackWeight_append (size : κ → ℕ) (new rest : List (Cmd κ)) :
    stackWeight size (new ++ rest) = stackWeight size new + stackWeight size rest := by
  simp [stackWeight]

theorem stackWeight_trigger (size : κ → ℕ) : stackWeight size (trigger κ) = 4 := rfl

theorem Applied.rankSum_le {e : Effect σ κ} (h : Applied c e c') : rankSum c'.q.states ≤ rankSum c.q.states := by
  refine DescriptorQueue.rankSum_le fun p => ?_
  rcases h.states p with ⟨-, hs⟩ | ⟨-, hs, hs'⟩
  · rw [hs]
  · rw [hs, hs']
    decide

theorem potential_lt {q q' : QueueBase} (hr : q'.ring = q.ring) (h : rankSum q'.states < rankSum q.states) :
    q'.potential < q.potential := by
  unfold QueueBase.potential
  rw [QueueBase.toFetch_congr hr]
  omega

theorem Applied.potential_le {e : Effect σ κ} (h : Applied c e c') : c'.q.potential ≤ c.q.potential := by
  have := h.rankSum_le
  unfold QueueBase.potential
  rw [QueueBase.toFetch_congr h.ring]
  omega

theorem fetch_potential (h : Running S .triggerFetch c) (he : triggerFetch env c = .ok c')
    (hn : c.q.fetchCnt ≠ 0) : c'.q.potential < c.q.potential := by
  rcases triggerFetch_ok h.enabled he with ⟨hz, -⟩ | ⟨-, hl, rfl⟩
  · exact absurd hz hn
  · have hfetch : c.q.beginFetch.toFetch + c.q.fetchCnt = c.q.toFetch :=
      QueueBase.toFetch_fetch (Nat.pos_of_ne_zero hl) h.len_lt rfl
    have hrank : rankSum c.q.beginFetch.states ≤ rankSum c.q.states + 7 * c.q.fetchCnt := by
      refine @rankSum_range _ _ c.q.fetchPos _ _ ?_ ?_
      · intro p hp
        rw [states_beginFetch, if_neg hp]
      · intro p hp
        rw [states_beginFetch, if_pos hp]
        decide
    unfold QueueBase.potential
    dsimp only
    omega

theorem writeback_potential (h : Running S .triggerWriteback c) (he : triggerWriteback S env c = .ok c')
    (hn : c.q.writebackCnt ≠ 0) : c'.q.potential < c.q.potential := by
  rcases triggerWriteback_ok h.enabled he with ⟨hz, -⟩ | ⟨-, rfl⟩
  · exact absurd hz hn
  · obtain ⟨hle, -⟩ := writebackCnt_bounds c.q h.window.idx_lt h.len_lt
    obtain ⟨-, hpr⟩ := writebackAvail_spec c.q
    have hst : ∀ p, offset c.q.activeFirstPos p < c.q.writebackCnt → c.q.states p = .processed :=
      fun p hp => states_of_offset hpr (by omega)
    have hfirst : offset c.q.activeFirstPos (slot maxActiveDescs (c.q.activeFirstPos + 0)) < c.q.writebackCnt := by
      rw [offset_slot _ _ (by decide)]
      omega
    refine potential_lt rfl (rankSum_lt (fun p => ?_) (slot maxActiveDescs (c.q.activeFirstPos + 0)) ?_)
    · rw [states_markRange]
      split
      · rw [hst p ‹_›]
        decide
      · exact le_rfl
    · rw [states_markRange, if_pos hfirst, hst _ hfirst]
      decide

theorem fetchDone_potential {pos cnt i : ℕ} {buf : List UInt8} (h : Running S (.fetchDone pos cnt i buf) c)
    (he : fetchDone S c pos cnt i buf = .ok c') (hi : i < cnt) : c'.q.potential < c.q.potential := by
  rcases fetchDone_ok he with ⟨hn, -⟩ | ⟨-, p, d, q, hp, -, rfl, hc⟩
  · omega
  · have hf : c.q.states p = .fetching := by
      refine h.owned.state_eq ?_
      rw [Cmd.claims, rangeClaims_succ hi, hp]
      exact List.mem_cons_self
    have hst : (c.q.modify p fun x => { x with state := .preparing, desc := d }).states =
        Function.update c.q.states p .preparing := by
      funext r
      by_cases hr : r = p
      · subst hr
        simp [QueueBase.states, QueueBase.modify]
      · simp [QueueBase.states, QueueBase.modify, hr]
    rcases hc with ⟨-, rfl⟩ | ⟨addr, len, -, rfl⟩
    · refine potential_lt rfl ?_
      rw [states_setState, hst, Function.update_idem]
      exact rankSum_update (by rw [hf]; decide)
    · refine potential_lt rfl ?_
      rw [states_modify _ p (growData len) fun x => by unfold growData; split <;> rfl, hst]
      exact rankSum_update (by rw [hf]; decide)

theorem dataFetch_measure {size : κ → ℕ} {p : Slot} {addr off total : ℕ}
    (h : Running S (.dataFetch p addr off total) c) (he : dataFetch env c p addr off total = .ok c') :
    measure size c' < measure size { c with stack := .dataFetch p addr off total :: c.stack } := by
  obtain ⟨n, q, hn, hq, hc⟩ := dataFetch_ok he
  have hp : c.q.states p = .preparing := h.owned.state_eq (by simp [Cmd.claims])
  have hst : q.states = c.q.states := by
    rw [hq]
    exact states_modify _ _ _ fun _ => rfl
  have hring : q.ring = c.q.ring := by
    rw [hq]
    rfl
  rcases hc with ⟨hlt, rfl⟩ | ⟨-, rfl⟩
  · refine measure_lt_of_weight ?_ ?_
    · unfold QueueBase.potential
      rw [QueueBase.toFetch_congr hring, hst]
    · simp only [stackWeight_cons, Cmd.weight]
      have : 0 < maxDmaSize := by decide
      omega
  · refine measure_lt_of_potential (potential_lt hring ?_)
    rw [states_setState, hst]
    exact rankSum_update (by rw [hp]; decide)

theorem writebackDone_potential {pos n : ℕ} (h : Running S (.writebackDone pos n) c)
    (hf : pos = c.q.activeFirstPos ∧ n ≤ c.q.activeCnt) (he : writebackDone c pos n = .ok c') :
    c'.q.potential ≤ c.q.potential := by
  obtain ⟨rfl, hn⟩ := hf
  obtain ⟨-, rfl⟩ := writebackDone_ok h.enabled he
  have hb := bumpCnt_eq h.window.cnt_le hn h.states
  have hrank : rankSum (c.q.markRange c.q.activeFirstPos n .writtenBack).bump.states ≤ rankSum c.q.states := by
    refine rankSum_le fun p => ?_
    rw [states_bump hb]
    split
    · exact Nat.zero_le _
    · exact le_rfl
  unfold QueueBase.potential
  dsimp only
  rw [QueueBase.toFetch_bump hn hb]
  omega

theorem processLoop_measure {size : κ → ℕ} {i j : ℕ} (h : processLoop S env c i j = .ok c') :
    measure size c' < measure size { c with stack := .processLoop i j :: c.stack } := by
  rcases processLoop_ok h with ⟨-, rfl⟩ | ⟨-, hst, p, q, e, rfl, rfl, -, ha⟩
  · refine measure_lt_of_weight le_rfl ?_
    rw [stackWeight_cons]
    exact Nat.lt_add_of_pos_left Nat.one_pos
  · have ha := applyEffect_applied ha
    refine measure_lt_of_potential (ha.potential_le.trans_lt (potential_lt rfl ?_))
    rw [states_setState]
    rw [stateAt_eq] at hst
    exact rankSum_update (by rw [hst]; decide)

theorem resume_measure {size : κ → ℕ} {k : κ} (hS : Shrinks S size) (h : resume S env c k = .ok c') :
    measure size c' < measure size { c with stack := .resume k :: c.stack } := by
  obtain ⟨e, hr, ha⟩ := resume_ok h
  have ha := applyEffect_applied ha
  refine measure_lt_of_weight ha.potential_le ?_
  have hnext : (e.next.toList.map fun k => 2 * size k + 2).sum ≤ 2 * size k := by
    cases hk : e.next with
    | none => exact Nat.zero_le _
    | some k' =>
      have := hS _ _ _ _ _ hr k' hk
      simp only [Option.toList_some, List.map_cons, List.map_nil, List.sum_cons, List.sum_nil]
      omega
  have hwrite : stackWeight size (e.write.toList.map fun w => .dataWritten w.1) ≤ 1 := by
    cases e.write <;> simp [stackWeight, Cmd.weight]
  have hcmds : stackWeight size e.cmds ≤ 2 * size k + 1 := by
    rw [Effect.cmds, stackWeight_append]
    have : stackWeight size (e.next.toList.map Cmd.resume) = (e.next.toList.map fun k => 2 * size k + 2).sum := by
      rw [stackWeight, List.map_map]
      rfl
    omega
  rw [ha.stack, stackWeight_append, stackWeight_cons, Cmd.weight]
  omega

theorem exec_queue_measure {size : κ → ℕ} {cmd : Cmd κ} (hrun : Running S cmd c)
    (hfront : ∀ pos n, cmd = .writebackDone pos n → pos = c.q.activeFirstPos ∧ n ≤ c.q.activeCnt)
    (hk : ∀ k, cmd ≠ .resume k) (h : exec S env c cmd = .ok c') : measure size c' < measure size { c with stack := cmd :: c.stack } := by
  cases cmd with
  | triggerFetch =>
    by_cases hn : c.q.fetchCnt = 0
    · rcases triggerFetch_ok hrun.enabled h with ⟨-, rfl⟩ | ⟨hne, -⟩
      · refine measure_lt_of_weight le_rfl ?_
        rw [stackWeight_cons]
        exact Nat.lt_add_of_pos_left Nat.one_pos
      · exact absurd hn hne
    · have hlow := fetch_potential hrun h hn
      exact measure_lt_of_potential hlow
  | triggerProcess =>
    cases h
    rw [triggerProcess_eq hrun.enabled]
    refine measure_lt_of_weight le_rfl ?_
    rw [stackWeight_cons, stackWeight_cons, Cmd.weight, Cmd.weight]
    omega
  | triggerWriteback =>
    by_cases hn : c.q.writebackCnt = 0
    · rcases triggerWriteback_ok hrun.enabled h with ⟨-, rfl⟩ | ⟨hne, -⟩
      · refine measure_lt_of_weight le_rfl ?_
        rw [stackWeight_cons]
        exact Nat.lt_add_of_pos_left Nat.one_pos
      · exact absurd hn hne
    · have hlow := writeback_potential hrun h hn
      exact measure_lt_of_potential hlow
  | processLoop i j => exact processLoop_measure h
  | fetchDone pos cnt i buf =>
    by_cases hlt : i < cnt
    · have hlow := fetchDone_potential hrun h hlt
      exact measure_lt_of_potential hlow
    · rcases fetchDone_ok h with ⟨-, rfl⟩ | ⟨h', -⟩
      · refine measure_lt_of_weight le_rfl ?_
        rw [stackWeight_cons, stackWeight_append, stackWeight_trigger, Cmd.weight]
        omega
      · exact absurd h' hlt
  | dataFetch p addr off total => exact dataFetch_measure hrun h
  | dataWritten p =>
    have hp : c.q.states p = .processing := hrun.owned.state_eq (by simp [Cmd.claims])
    rw [dataWritten_ok h]
    refine measure_lt_of_potential (potential_lt rfl ?_)
    rw [states_setState]
    exact rankSum_update (by rw [hp]; decide)
  | writebackDone pos n =>
    have hlow := writebackDone_potential hrun (hfront pos n rfl) h
    refine measure_lt_of_weight hlow ?_
    rw [(writebackDone_ok hrun.enabled h).2, stackWeight_cons, stackWeight_append, stackWeight_trigger, Cmd.weight]
    omega
  | resume k => exact absurd rfl (hk k)

/-- Every nested call makes the measure smaller. -/
theorem exec_measure {size : κ → ℕ} {cmd : Cmd κ} (hS : Shrinks S size) (hrun : Running S cmd c)
    (hfront : ∀ pos n, cmd = .writebackDone pos n → pos = c.q.activeFirstPos ∧ n ≤ c.q.activeCnt)
    (h : exec S env c cmd = .ok c') : measure size c' < measure size { c with stack := cmd :: c.stack } := by
  by_cases hk : ∃ k, cmd = .resume k
  · obtain ⟨k, rfl⟩ := hk
    exact resume_measure hS h
  · exact exec_queue_measure hrun hfront (fun k hc => hk ⟨k, hc⟩) h

def Nested (S : Subclass ε ι σ κ) (c c' : Config σ κ) : Prop :=
  ∃ (env : Env ε) (cmd : Cmd κ) (rest : List (Cmd κ)), c.stack = cmd :: rest ∧
    exec S env { c with stack := rest } cmd = .ok c'

theorem Nested.measure_lt {size : κ → ℕ} (hS : Shrinks S size) (hi : Inv S c) (h : Nested S c c') :
    measure size c' < measure size c := by
  obtain ⟨env, cmd, rest, hs, h⟩ := h
  have hlt := exec_measure hS (hi.running hs) (fun pos n hc => hi.settled.front pos n rest (hc ▸ hs)) h
  have hc : ({ c with stack := cmd :: rest } : Config σ κ) = c := by rw [← hs]
  exact hc ▸ hlt

theorem Nested.inv (hi : Inv S c) (h : Nested S c c') : Inv S c' := by
  obtain ⟨env, cmd, rest, hs, h⟩ := h
  exact hi.exec hs h

theorem exec_log {cmd : Cmd κ} (he : c.q.enabled = true) (h : exec S env c cmd = .ok c') :
    ∃ new, c'.log = c.log ++ new := by
  rcases exec_subclass he h with hq | ⟨i, j, p, e, -, -, -, -, -, ha⟩ | ⟨k, e, -, -, ha⟩
  · obtain ⟨new, hlog, -⟩ := hq.log
    exact ⟨new, hlog⟩
  · rw [ha.log, enterProcess, List.append_assoc]
    exact ⟨_, rfl⟩
  · exact ⟨_, ha.log⟩

theorem acc_nested {size : κ → ℕ} (hS : Shrinks S size) (hi : Inv S c) : Acc (fun b a => Nested S a b) c := by
  induction hm : measure size c using WellFoundedLT.induction generalizing c with
  | _ m ih =>
    subst hm
    exact ⟨c, fun d hd => ih _ (hd.measure_lt hS hi) (hd.inv hi) rfl⟩

end

theorem adminQueue_shrinks : Shrinks AdminQueue.subclass fun _ => 0 := by
  intro env s ctxs k e h k' hk'
  change AdminQueue.resume s ctxs = .ok e at h
  unfold AdminQueue.resume at h
  split at h
  · cases h
  · obtain ⟨r, hr, h⟩ := bind_ok h
    obtain ⟨_, -, hr⟩ := bind_ok hr
    cases hr
    unfold AdminQueue.complete at h
    dsimp only at h
    split at h
    · cases h
    · cases h
      cases hk'

theorem lanRx_shrinks : Shrinks LanRx.subclass fun k => k.numDescs - k.i := by
  intro env s ctxs k e h k' hk'
  change LanRx.resume s ctxs k = .ok e at h
  unfold LanRx.resume at h
  split at h
  · cases h
  · cases h
    dsimp only at hk'
    split at hk'
    · cases hk'
      dsimp only
      omega
    · cases hk'

end Vmux.DescriptorQueue
