import Vmux.AdminQueue
import Vmux.LanRx
import Vmux.LanTx
import Vmux.QueueIdle

namespace Vmux.ExactlyOnce

open Bytes CircularWindow Transitions DescriptorQueue

def writtenBy (descLen : ℕ) : Event → List Turn
  | .writeBack pos idx cnt addr _ => batch descLen pos idx cnt addr
  | _ => []

def written (descLen : ℕ) (log : List Event) : List Turn := (ringLog log).flatMap (writtenBy descLen)

theorem written_congr {descLen : ℕ} {a b : List Event} (h : ringLog a = ringLog b) :
    written descLen a = written descLen b := by
  rw [written, h, written]

section

variable {ε ι σ κ : Type}

/-- How many descriptors the write-back on top of the stack has sent but not yet freed. -/
def underway : List (Cmd κ) → ℕ
  | .writebackDone _ n :: _ => n
  | _ => 0

theorem underway_of_isWriteback {stack : List (Cmd κ)} (h : ∀ x ∈ stack, x.isWriteback = false) :
    underway stack = 0 := by
  unfold underway
  split
  · cases h _ List.mem_cons_self
  · rfl

/-- A queue with the number of slots its guest has posted so far. -/
inductive GuestStep (S : Subclass ε ι σ κ) (len : ℕ) : Config σ κ × ℕ → Config σ κ × ℕ → Prop
  | exec {c c' : Config σ κ} {posted : ℕ} (env : Env ε) (cmd : Cmd κ) (rest : List (Cmd κ))
      (hs : c.stack = cmd :: rest) (h : exec S env { c with stack := rest } cmd = .ok c') :
      GuestStep S len (c, posted) (c', posted)
  | receive {c c' : Config σ κ} {posted : ℕ} (env : Env ε) (x : ι) (hs : c.stack = [])
      (h : receive S env c x = .ok c') : GuestStep S len (c, posted) (c', posted)
  | tail {c : Config σ κ} {posted : ℕ} (t : ℕ) (ht : t < len) (hs : c.stack = []) :
      GuestStep S len (c, posted) (tailWrite c t, posted + (t + len - c.q.regTail) % len)

/-- Head write-back is off, and every tail the guest writes is below `len`. -/
def guestMachine (S : Subclass ε ι σ κ) (base len : ℕ) : Machine (Config σ κ × ℕ) where
  start s := Enabled S base len s.1 ∧ S.headWriteBack s.1.client = none ∧ s.1.q.regTail < len ∧ s.2 = s.1.q.regTail
  step := GuestStep S len

variable {S : Subclass ε ι σ κ} {base len : ℕ}

theorem GuestStep.queueStep {s s' : Config σ κ × ℕ} (hl : len < 0x4000) (h : GuestStep S len s s') :
    QueueStep S s.1 s'.1 := by
  cases h with
  | exec env cmd rest hs h => exact .exec env cmd rest hs h
  | receive env x hs h => exact .receive env x hs h
  | tail t ht hs => exact .tail t (by omega) hs rfl

theorem reachable_queue {s : Config σ κ × ℕ} (h : (guestMachine S base len).Reachable s) :
    len < 0x4000 ∧ 1 ≤ len ∧ (machine S base len).Reachable s.1 := by
  induction h with
  | start h => exact ⟨h.1.len_lt, h.1.len_pos, .start h.1⟩
  | step _ h ih => exact ⟨ih.1, ih.2.1, .step ih.2.2 (GuestStep.queueStep ih.1 h)⟩

/-- All that was fetched has been posted, and what was freed has been written back. -/
structure Once (base len : ℕ) (c : Config σ κ) (posted done : ℕ) : Prop where
  ringed : Ringed base len c done
  tail_eq : c.q.regTail = posted % len
  written_eq : written c.q.descLen c.log = turns base len c.q.descLen (done + underway c.stack)
  posted_le : done + c.q.activeCnt ≤ posted

theorem descAvail_posted {q : QueueBase} {posted done : ℕ} (hl : 0 < q.len) (hlt : q.len < 0x4000)
    (ht : q.regTail = posted % q.len) (hn : q.nextIdx = done % q.len) (hd : done ≤ posted) :
    done + q.fetchCnt ≤ posted := by
  obtain ⟨h1, -, h3⟩ := fetchCnt_bounds q hl
  have hp := Nat.div_add_mod posted q.len
  have hq := Nat.div_add_mod done q.len
  have hpl := Nat.mod_lt posted hl
  have hql := Nat.mod_lt done hl
  have hdiv : done / q.len ≤ posted / q.len := Nat.div_le_div_right hd
  by_cases hle : q.nextIdx ≤ q.regTail
  · -- the descriptors up to the tail are available
    have ha : q.descAvail = q.regTail - q.nextIdx := by
      unfold QueueBase.descAvail sub32
      rw [show q.regTail + 0x100000000 - q.nextIdx = q.regTail - q.nextIdx + 0x100000000 by omega,
        Nat.add_mod_right, Nat.mod_eq_of_lt (by omega), Nat.mod_eq_of_lt (by omega)]
    have := Nat.mul_le_mul_left q.len hdiv
    omega
  · -- the tail has wrapped: the batch stops at the end of the ring, all of which is posted
    have hs : done / q.len + 1 ≤ posted / q.len := by
      by_contra hc
      have heq : done / q.len = posted / q.len := by omega
      rw [heq] at hq
      omega
    have := Nat.mul_le_mul_left q.len hs
    rw [Nat.mul_add, Nat.mul_one] at this
    omega

/-- The subclass never switches head write-back on or off. -/
def KeepsHead (S : Subclass ε ι σ κ) : Prop :=
  (∀ env s ctxs p e, S.process env s ctxs p = .ok e → S.headWriteBack e.client = S.headWriteBack s) ∧
    ∀ env s ctxs k e, S.resume env s ctxs k = .ok e → S.headWriteBack e.client = S.headWriteBack s

theorem step_headWriteBack {c c' : Config σ κ} (hk : KeepsHead S) (he : c.q.enabled = true)
    (h : QueueStep S c c') : S.headWriteBack c'.client = S.headWriteBack c.client := by
  cases h with
  | exec env cmd rest hs h =>
    rcases exec_calls (c := { c with stack := rest }) he h with
      ⟨h1, -⟩ | ⟨i, j, p, e, -, -, -, -, hp, h1, -⟩ | ⟨k, e, -, hr, h1, -⟩
    · rw [h1]
    · rw [h1, hk.1 _ _ _ _ _ hp]
    · rw [h1, hk.2 _ _ _ _ _ hr]
  | tail t ht hs h => rw [h, tailWrite]
  | receive env x hs h =>
    obtain ⟨k, rfl⟩ := receive_ok h
    rfl

variable {env : Env ε} {c c' : Config σ κ} {cmd : Cmd κ} {rest : List (Cmd κ)} {posted done : ℕ}

/-- The ring after `done` descriptors have been freed, each of them written back once. -/
structure Wrote (base len : ℕ) (c : Config σ κ) (done : ℕ) : Prop where
  ringed : Ringed base len c done
  written_eq : written c.q.descLen c.log = turns base len c.q.descLen (done + underway c.stack)

theorem Once.wrote (h : Once base len c posted done) : Wrote base len c done := ⟨h.ringed, h.written_eq⟩

theorem Wrote.congr (h : Wrote base len c done) (hr : c'.q.ring = c.q.ring) (hlog : ringLog c'.log = ringLog c.log)
    (hu : underway c'.stack = underway c.stack) : Wrote base len c' done := by
  refine ⟨h.ringed.congr hr (fetched_congr hlog), ?_⟩
  rw [show c'.q.descLen = c.q.descLen from congrArg Ring.descLen hr, hu, written_congr hlog]
  exact h.written_eq

theorem Wrote.fetch (h : Wrote base len c done) (hi : Inv S c) (hs : c.stack = .triggerFetch :: rest)
    (hr : c'.q.ring = { c.q.ring with cnt := c.q.activeCnt + c.q.fetchCnt })
    (hlog : ringLog c'.log = ringLog c.log ++ [.fetch c.q.fetchPos c.q.nextIdx c.q.fetchCnt c.q.fetchAddr])
    (hu : underway c'.stack = 0) : Wrote base len c' done := by
  have hl : 0 < c.q.len := Nat.lt_of_le_of_lt (Nat.zero_le _) hi.window.idx_lt
  have h0 : underway c.stack = 0 := by rw [hs]; rfl
  have h3 : c'.q.descLen = c.q.descLen := congrArg Ring.descLen hr
  refine ⟨h.ringed.fetch (h.ringed.len_eq ▸ hl) hr hlog, ?_⟩
  have hw := h.written_eq
  rw [h0] at hw
  rw [h3, hu, ← hw]
  unfold written
  rw [hlog, List.flatMap_append]
  exact List.append_nil _

theorem Wrote.writeback (h : Wrote base len c done) (hi : Inv S c) (hw : S.headWriteBack c.client = none)
    (hs : c.stack = .triggerWriteback :: rest) (hr : c'.q.ring = c.q.ring)
    (hlog : ringLog c'.log = ringLog c.log ++ [writebackEvent S { c with stack := rest }])
    (hst : c'.stack = .writebackDone c.q.activeFirstPos c.q.writebackCnt :: rest) : Wrote base len c' done := by
  have h0 : underway c.stack = 0 := by rw [hs]; rfl
  have hev : writebackEvent S { c with stack := rest } = .writeBack c.q.activeFirstPos c.q.activeFirstIdx
      c.q.writebackCnt c.q.writebackAddr
      ((List.range c.q.writebackCnt).flatMap fun i => (c.q.ctx (c.q.activeFirstPos + i)).desc) := by
    unfold writebackEvent
    rw [hw]
  rw [hev] at hlog
  have h3 : c'.q.descLen = c.q.descLen := congrArg Ring.descLen hr
  refine ⟨h.ringed.congr hr ?_, ?_⟩
  · unfold fetched
    rw [hlog, List.flatMap_append]
    exact List.append_nil _
  · have hb := (writebackCnt_bounds c.q hi.window.idx_lt hi.len_lt).2
    have hwr := h.written_eq
    have hf := h.ringed.first_eq
    rw [h0, Nat.add_zero] at hwr
    rw [h3, hst, underway, turns_add (by rw [← hf, ← h.ringed.len_eq]; exact hb), ← hwr]
    unfold written
    rw [hlog, List.flatMap_append]
    refine congr_arg₂ _ rfl ?_
    rw [← hf, ← h.ringed.base_eq, ← h.ringed.pos_eq]
    exact List.append_nil _

theorem Wrote.writebackDone {pos n : ℕ} (h : Wrote base len c done) (hi : Inv S c)
    (hs : c.stack = .writebackDone pos n :: rest) (hq : c'.q = (c.q.markRange pos n .writtenBack).bump)
    (hlog : ringLog c'.log = ringLog c.log) (hst : c'.stack = trigger κ ++ rest) : Wrote base len c' (done + n) := by
  obtain ⟨hr, -, -, hdl⟩ := h.ringed.writebackDone hi hs hq hlog
  have hu : underway c'.stack = 0 := by rw [hst]; rfl
  refine ⟨hr, ?_⟩
  have hw := h.written_eq
  rw [hs, underway] at hw
  rw [hdl, hu, written_congr hlog]
  exact hw

theorem Wrote.start (h : Enabled S base len c) : Wrote base len c 0 := by
  refine ⟨Ringed.start h, ?_⟩
  rw [h.log, h.stack]
  rfl

theorem Wrote.tail (h : Wrote base len c done) (he : c.q.enabled = true) (hs : c.stack = []) (t : ℕ) :
    Wrote base len (tailWrite c t) done := by
  have hu : underway (tailWrite c t).stack = underway c.stack := by
    simp only [tailWrite, he, if_true, hs]
    rfl
  refine ⟨⟨h.ringed.base_eq, h.ringed.len_eq, h.ringed.pos_eq, h.ringed.first_eq, h.ringed.fetched_eq⟩, ?_⟩
  rw [hu]
  exact h.written_eq

theorem Once.congr (h : Once base len c posted done) (hr : c'.q.ring = c.q.ring)
    (hlog : ringLog c'.log = ringLog c.log) (hu : underway c'.stack = underway c.stack) :
    Once base len c' posted done := by
  obtain ⟨-, -, -, h4, -, -, -, h8⟩ := Ring.mk.inj hr
  have hw := h.wrote.congr hr hlog hu
  refine ⟨hw.ringed, h4.trans h.tail_eq, hw.written_eq, ?_⟩
  rw [h8]
  exact h.posted_le

theorem Once.fetch (h : Once base len c posted done) (hi : Inv S c) (hs : c.stack = .triggerFetch :: rest)
    (hr : c'.q.ring = { c.q.ring with cnt := c.q.activeCnt + c.q.fetchCnt })
    (hlog : ringLog c'.log = ringLog c.log ++ [.fetch c.q.fetchPos c.q.nextIdx c.q.fetchCnt c.q.fetchAddr])
    (hu : underway c'.stack = 0) : Once base len c' posted done := by
  have hl : 0 < c.q.len := Nat.lt_of_le_of_lt (Nat.zero_le _) hi.window.idx_lt
  obtain ⟨-, -, -, h4, -, -, -, h8⟩ := Ring.mk.inj hr
  have hw := h.wrote.fetch hi hs hr hlog hu
  refine ⟨hw.ringed, h4.trans h.tail_eq, hw.written_eq, ?_⟩
  have htail := h.tail_eq
  have hn := h.ringed.nextIdx
  rw [← h.ringed.len_eq] at htail hn
  rw [h8, ← Nat.add_assoc]
  exact descAvail_posted hl hi.len_lt htail hn h.posted_le

theorem Once.writeback (h : Once base len c posted done) (hi : Inv S c) (hw : S.headWriteBack c.client = none)
    (hs : c.stack = .triggerWriteback :: rest) (hr : c'.q.ring = c.q.ring)
    (hlog : ringLog c'.log = ringLog c.log ++ [writebackEvent S { c with stack := rest }])
    (hst : c'.stack = .writebackDone c.q.activeFirstPos c.q.writebackCnt :: rest) : Once base len c' posted done := by
  obtain ⟨-, -, -, h4, -, -, -, h8⟩ := Ring.mk.inj hr
  have hwr := h.wrote.writeback hi hw hs hr hlog hst
  refine ⟨hwr.ringed, h4.trans h.tail_eq, hwr.written_eq, ?_⟩
  rw [h8]
  exact h.posted_le

theorem Once.writebackDone {pos n : ℕ} (h : Once base len c posted done) (hi : Inv S c)
    (hs : c.stack = .writebackDone pos n :: rest) (hq : c'.q = (c.q.markRange pos n .writtenBack).bump)
    (hlog : ringLog c'.log = ringLog c.log) (hst : c'.stack = trigger κ ++ rest) :
    Once base len c' posted (done + n) := by
  obtain ⟨-, hcnt, htail, -⟩ := h.ringed.writebackDone hi hs hq hlog
  have hw := h.wrote.writebackDone hi hs hq hlog hst
  have hle := h.posted_le
  exact ⟨hw.ringed, htail.trans h.tail_eq, hw.written_eq, by omega⟩

theorem Once.exec (hi : Inv S c) (hw : S.headWriteBack c.client = none) (h : Once base len c posted done)
    (hs : c.stack = cmd :: rest) (he : exec S env { c with stack := rest } cmd = .ok c') :
    ∃ done', Once base len c' posted done' := by
  have hbelow := hi.settled.below cmd rest hs
  rcases exec_ring (c := { c with stack := rest }) hi.enabled he with
    ⟨hc, hr, hlog, new, hst, hnew⟩ | ⟨rfl, hn, hr, hlog, x, hst, hx⟩ | ⟨rfl, hn, hr, hlog, hst⟩ |
      ⟨pos, n, rfl, hq, hlog, hst⟩
  · refine ⟨done, h.congr hr hlog ?_⟩
    have h0 : underway c.stack = 0 := by
      rw [hs]
      apply underway_of_isWriteback
      intro x hx
      rcases List.mem_cons.mp hx with rfl | hx
      · exact hc
      · exact hbelow x hx
    rw [hst, h0]
    apply underway_of_isWriteback
    intro x hx
    rcases List.mem_append.mp hx with hx | hx
    · exact hnew x hx
    · exact hbelow x hx
  · exact ⟨done, h.fetch hi hs hr hlog (by rw [hst]; cases x <;> first | rfl | cases hx)⟩
  · exact ⟨done, h.writeback hi hw hs hr hlog hst⟩
  · exact ⟨done + n, h.writebackDone hi hs hq hlog hst⟩

theorem Once.start (h : Enabled S base len c) (ht : c.q.regTail < len) : Once base len c c.q.regTail 0 := by
  have hw := Wrote.start h
  refine ⟨hw.ringed, (Nat.mod_eq_of_lt ht).symm, hw.written_eq, ?_⟩
  rw [h.cnt]
  omega

theorem Once.tail (h : Once base len c posted done) (hi : Inv S c) {t : ℕ} (ht : t < len) (hs : c.stack = []) :
    Once base len (tailWrite c t) (posted + (t + len - c.q.regTail) % len) done := by
  have hw := h.wrote.tail hi.enabled hs t
  refine ⟨hw.ringed, ?_, hw.written_eq, h.posted_le.trans (Nat.le_add_right _ _)⟩
  change t = _
  have hr : c.q.regTail < len := by
    rw [h.tail_eq]
    exact Nat.mod_lt _ (by omega)
  rw [Nat.add_mod_mod, ← Nat.mod_add_mod, ← h.tail_eq,
    show c.q.regTail + (t + len - c.q.regTail) = t + len by omega, Nat.add_mod_right, Nat.mod_eq_of_lt ht]

theorem Once.reachable (hk : KeepsHead S) {s : Config σ κ × ℕ} (h : (guestMachine S base len).Reachable s) :
    S.headWriteBack s.1.client = none ∧ ∃ done, Once base len s.1 s.2 done := by
  induction h with
  | start h =>
    obtain ⟨h1, h2, h3, h4⟩ := h
    exact ⟨h2, 0, h4 ▸ Once.start h1 h3⟩
  | step hr h ih =>
    obtain ⟨hw, done, ho⟩ := ih
    obtain ⟨hl, -, hq⟩ := reachable_queue hr
    have hi := Inv.reachable hq
    refine ⟨(step_headWriteBack hk hi.enabled (h.queueStep hl)).trans hw, ?_⟩
    cases h with
    | exec env cmd rest hs h => exact Once.exec hi hw ho hs h
    | receive env x hs h =>
      obtain ⟨k, rfl⟩ := receive_ok h
      refine ⟨done, ho.congr rfl rfl ?_⟩
      cases k <;> simp [hs, underway]
    | tail t ht hs => exact ⟨done, ho.tail hi ht hs⟩

/-- The ring served exactly once so far: `n` descriptors fetched, of which the first `done` are written back. -/
structure Exact (S : Subclass ε ι σ κ) (base len : ℕ) (c : Config σ κ) (posted n done : ℕ) : Prop where
  fetched_eq : fetched c.q.descLen c.log = turns base len c.q.descLen n
  posted_le : n ≤ posted
  written_eq : written c.q.descLen c.log = turns base len c.q.descLen done
  done_le : done ≤ n
  rest : c.stack = [] → n = done + c.q.activeCnt ∧
    (done < n → slot maxActiveDescs c.q.activeFirstPos ∈ S.held c.client)

theorem Exact.reachable (hk : KeepsHead S) (hr : Rouses S) {s : Config σ κ × ℕ}
    (h : (guestMachine S base len).Reachable s) : ∃ n done, Exact S base len s.1 s.2 n done := by
  obtain ⟨-, done, ho⟩ := Once.reachable hk h
  have hq := (reachable_queue h).2.2
  have hi := Inv.reachable hq
  have hu : underway s.1.stack ≤ s.1.q.activeCnt := by
    unfold underway
    split
    · rename_i pos n rest hs
      exact (hi.settled.front pos n rest hs).2
    · exact Nat.zero_le _
  refine ⟨_, _, ho.ringed.fetched_eq, ho.posted_le, ho.written_eq, by omega, fun hs => ?_⟩
  have h0 : underway s.1.stack = 0 := by rw [hs]; rfl
  refine ⟨by omega, fun hlt => ?_⟩
  exact rest_held hr hq hs (by omega)

end

theorem adminQueue_keepsHead : KeepsHead AdminQueue.subclass :=
  ⟨fun _ _ _ _ _ _ => rfl, fun _ _ _ _ _ _ => rfl⟩

theorem lanRx_keepsHead : KeepsHead LanRx.subclass :=
  ⟨fun _ _ _ _ _ _ => rfl, fun _ _ _ _ _ _ => rfl⟩

theorem lanTx_keepsHead : KeepsHead LanTx.subclass := by
  constructor
  · rintro env s ctxs p e ⟨⟩
    rfl
  · intro env s ctxs k e h
    obtain ⟨r, -, h⟩ := bind_ok h
    cases r <;> cases h <;> rfl

theorem adminQueue_rouses : Rouses AdminQueue.subclass := .inr fun _ _ _ x _ => x.elim

theorem lanTx_rouses : Rouses LanTx.subclass := .inr fun _ _ _ x _ => x.elim

theorem lanRx_rouses : Rouses LanRx.subclass := by
  refine .inl ⟨?_, ?_⟩
  · rintro env s ctxs p e ⟨⟩
    rfl
  · intro env s ctxs k e h
    change LanRx.resume s ctxs k = _ at h
    unfold LanRx.resume at h
    split at h <;> cases h
    rfl

theorem complete_pending {s : AdminQueue.AdminClient} {p : Slot} {h : AdminQueue.Handled}
    {e : Effect AdminQueue.AdminClient Unit} (he : AdminQueue.complete s p h = .ok e) :
    e.client.pending.length = s.pending.length + e.next.toList.length := by
  unfold AdminQueue.complete at he
  split at he
  · cases he
    simp
  · cases he
    simp
  · split at he
    · cases he
    · cases he
      simp

theorem countP_cmds {σ κ : Type} (e : Effect σ κ) : e.cmds.countP Cmd.isResume = e.next.toList.length := by
  cases hw : e.write <;> cases hn : e.next <;> simp [Effect.cmds, hw, hn, Cmd.isResume]

theorem pending_exec {env : Env AdminQueue.AdminEnv} {c c' : Config AdminQueue.AdminClient Unit} {cmd : Cmd Unit}
    {rest : List (Cmd Unit)} (hen : c.q.enabled = true) (ih : c.client.pending.length = c.stack.countP Cmd.isResume)
    (hs : c.stack = cmd :: rest) (he : exec AdminQueue.subclass env { c with stack := rest } cmd = .ok c') :
    c'.client.pending.length = c'.stack.countP Cmd.isResume := by
  rw [hs, List.countP_cons] at ih
  rcases exec_subclass (c := { c with stack := rest }) hen he with
    hq | ⟨i, j, p, e, rfl, -, -, -, hp, ha⟩ | ⟨k, e, rfl, hr, ha⟩
  · obtain ⟨new, hst, hnew⟩ := hq.stack
    have h0 : new.countP Cmd.isResume = 0 := List.countP_eq_zero.mpr fun x hx => by simp [hnew x hx]
    rw [hq.client, hst, List.countP_append, h0, ih, hq.cmd.1]
    simp
  · obtain ⟨h, -, hc⟩ := bind_ok hp
    have hl := complete_pending hc
    rw [ha.client, ha.stack, List.countP_append, countP_cmds, hl]
    simp only [enterProcess, List.countP_cons, Cmd.isResume] at ih ⊢
    simp only [Bool.false_eq_true, if_false] at ih ⊢
    omega
  · change AdminQueue.resume c.client c.q.ctxs = .ok e at hr
    unfold AdminQueue.resume at hr
    split at hr
    · cases hr
    · rename_i p pending hpend
      obtain ⟨h, -, hc⟩ := bind_ok hr
      have hl := complete_pending hc
      rw [ha.client, ha.stack, List.countP_append, countP_cmds, hl]
      rw [hpend] at ih
      simp only [Cmd.isResume, List.length_cons, if_true] at ih ⊢
      omega

theorem admin_pending {base len : ℕ} {c : Config AdminQueue.AdminClient Unit}
    (h : (machine AdminQueue.subclass base len).Reachable c) :
    c.client.pending.length = c.stack.countP Cmd.isResume := by
  refine h.strengthen (J := fun c => c.client.pending.length = c.stack.countP Cmd.isResume)
    (fun _ => Inv.reachable) ?_ ?_
  · intro c h
    change (AdminQueue.subclass.held c.client).length = _
    rw [h.held, h.stack]
    rfl
  · intro c c' hi _ ih hs
    cases hs with
    | exec env cmd rest hs he => exact pending_exec hi.enabled ih hs he
    | tail t _ hs he =>
      rw [he, tailWrite, hi.enabled]
      rw [hs] at ih ⊢
      exact ih
    | receive env x => exact x.elim

/-- For every queue: `n` descriptors have been fetched and the first `done` of them written back. -/
theorem fetch_and_write_back_once (base len : ℕ) :
    (∀ c posted, (guestMachine AdminQueue.subclass base len).Reachable (c, posted) →
      ∃ n done, Exact AdminQueue.subclass base len c posted n done ∧ (c.stack = [] → done = n)) ∧
    (∀ c posted, (guestMachine LanRx.subclass base len).Reachable (c, posted) →
      ∃ n done, Exact LanRx.subclass base len c posted n done) ∧
    ∀ c posted, (guestMachine LanTx.subclass base len).Reachable (c, posted) →
      ∃ n done, Exact LanTx.subclass base len c posted n done := by
  refine ⟨fun c posted h => ?_, fun c posted h => ?_, fun c posted h => ?_⟩
  · obtain ⟨n, done, he⟩ := Exact.reachable adminQueue_keepsHead adminQueue_rouses h
    refine ⟨n, done, he, fun hs => ?_⟩
    by_contra hn
    have hd := he.done_le
    have hm := (he.rest hs).2 (by omega)
    have hp := admin_pending (reachable_queue h).2.2
    rw [hs, List.countP_nil, List.length_eq_zero_iff] at hp
    change _ ∈ c.client.pending at hm
    rw [hp] at hm
    cases hm
  · exact Exact.reachable lanRx_keepsHead lanRx_rouses h
  · exact Exact.reachable lanTx_keepsHead lanTx_rouses h

section

variable {ε ι σ κ : Type} {S : Subclass ε ι σ κ} {base len : ℕ} {env : Env ε}

theorem guest_cascade {c c' : Config σ κ} {posted n : ℕ} (hc : (guestMachine S base len).Reachable (c, posted))
    (h : cascade S env n c = .ok c') : (guestMachine S base len).Reachable (c', posted) := by
  induction n generalizing c with
  | zero =>
    cases h
    exact hc
  | succ n ih =>
    rw [cascade] at h
    split at h
    · cases h
      exact hc
    · rename_i cmd rest hs
      obtain ⟨d, hd, h⟩ := bind_ok h
      exact ih (.step hc (.exec env cmd rest hs hd)) h

theorem guest_tailWrites {c c' : Config σ κ} {posted n : ℕ} {ts : List ℕ}
    (hc : (guestMachine S base len).Reachable (c, posted)) (ht : ∀ t ∈ ts, t < len)
    (h : tailWrites S env n ts c = .ok c') : ∃ posted', (guestMachine S base len).Reachable (c', posted') := by
  induction ts generalizing c posted with
  | nil => exact ⟨posted, guest_cascade hc h⟩
  | cons t ts ih =>
    obtain ⟨d, hd, h⟩ := bind_ok h
    split at h
    · rename_i hs
      exact ih (.step (guest_cascade hc hd) (.tail t (ht t (by simp)) hs)) (fun x hx => ht x (by simp [hx])) h
    · cases h

end

def wrapStart : Config AdminQueue.AdminClient Unit :=
  Config.enabled 0x1000 4 32 ⟨⟨0, 0, 60, fun _ => none, [], [], fun _ => [], fun _ => 0⟩, []⟩

/-- A ring of four descriptors, all commands zero, with the tail written past the end of the ring. -/
theorem fetch_and_write_back_once_wraps :
    ∃ c posted, (guestMachine AdminQueue.subclass 0x1000 4).Reachable (c, posted) ∧ c.stack = [] ∧
      fetched 32 c.log = [⟨0, 0, 0x1000⟩, ⟨1, 1, 0x1020⟩, ⟨2, 2, 0x1040⟩, ⟨3, 3, 0x1060⟩, ⟨4, 0, 0x1000⟩] ∧
      ∃ n, Exact AdminQueue.subclass 0x1000 4 c posted n n := by
  have hrun : (tailWrites AdminQueue.subclass ⟨fun _ => 0, fun _ _ => true, ⟨0, fun _ => 0⟩⟩ 80 [3, 1]
      wrapStart).toOption.map (fun c => (c.stack.length, fetched 32 c.log)) =
      some (0, [⟨0, 0, 0x1000⟩, ⟨1, 1, 0x1020⟩, ⟨2, 2, 0x1040⟩, ⟨3, 3, 0x1060⟩, ⟨4, 0, 0x1000⟩]) := by
    decide +kernel
  obtain ⟨c, hok, hf⟩ := ok_of_map hrun
  rw [Prod.mk.injEq, List.length_eq_zero_iff] at hf
  have hstart : (guestMachine AdminQueue.subclass 0x1000 4).Reachable (wrapStart, 0) :=
    .start ⟨⟨rfl, rfl, rfl, by norm_num, by norm_num, rfl, rfl, rfl, fun _ => rfl, rfl, rfl, rfl⟩, rfl,
      by decide, rfl⟩
  obtain ⟨posted, hr⟩ := guest_tailWrites hstart (by simp) hok
  obtain ⟨n, done, he, hd⟩ := (fetch_and_write_back_once 0x1000 4).1 c posted hr
  obtain rfl := hd hf.1
  exact ⟨c, posted, hr, hf.1, hf.2, done, he⟩

end Vmux.ExactlyOnce
