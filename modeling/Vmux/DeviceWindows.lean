import Vmux.ExactlyOnce
import Vmux.QueueReenable
import Vmux.QueueStatus

namespace Vmux.DeviceWindows

open Bytes CircularWindow Transitions DescriptorQueue AdminQueue LanRx LanTx Registers Nic DoorbellRouting QueueRestart
open QueueReenable Ownership

def baseOf (d : Device) : RingQueue → QueueBase
  | .atq => d.atq.q
  | .rx i => (d.rxqs i).q
  | .tx i => (d.txqs i).q

/-- A ring keeps its length while descriptors are in flight, and once its queue is enabled it has the
descriptor with which the queue goes on. -/
structure Fit (q q' : QueueBase) : Prop where
  len : q.activeCnt = 0 ∨ q'.len = q.len
  idx : q'.enabled = true → q.enabled = true ∧ q'.len = q.len ∨ q.activeFirstIdx < q'.len

theorem Fit.same {q q' : QueueBase} (hl : q'.len = q.len) (he : q'.enabled = q.enabled) : Fit q q' := by
  refine ⟨.inr hl, fun h => .inl ⟨?_, hl⟩⟩
  rw [← he]
  exact h

def Orderly (d d' : Device) : Prop := ∀ e, Fit (baseOf d e) (baseOf d' e)

/-- The guest enables queues only with rings that fit them. -/
def orderly : Machine Device := device.restrict Orderly

section

variable {ε ι σ κ : Type} {S : Subclass ε ι σ κ} {c c' c₁ c₂ : Config σ κ}

/-- What holds of a queue whether it is enabled or not. -/
structure Sane (S : Subclass ε ι σ κ) (c : Config σ κ) : Prop where
  cnt_le : c.q.activeCnt ≤ maxActiveDescs
  pos_lt : c.q.activeFirstPos < maxActiveDescs
  active : ∀ p, offset c.q.activeFirstPos p < c.q.activeCnt → c.q.states p ≠ .empty ∧
    (c.q.ctxs p).index = (c.q.activeFirstIdx + offset c.q.activeFirstPos p) % c.q.len
  rest : ∀ p, c.q.activeCnt ≤ offset c.q.activeFirstPos p → c.q.states p = .empty
  running : c.q.enabled = true → c.q.activeFirstIdx < c.q.len ∧ c.q.len < 0x4000
  owned : Owned Busy (claims S c) c.q.states
  settled : Settled c

theorem Sane.inv (h : Sane S c) (he : c.q.enabled = true) : Inv S c := by
  obtain ⟨hidx, hlen⟩ := h.running he
  exact ⟨he, hlen, .of_slots h.cnt_le h.pos_lt hidx h.active h.rest, h.owned, h.settled⟩

theorem sane_of_inv (h : Inv S c) : Sane S c :=
  ⟨h.window.cnt_le, h.window.pos_lt, fun _ hp => h.window.of_offset_lt hp, fun _ hp => h.window.of_le_offset hp,
    fun _ => ⟨h.window.idx_lt, h.len_lt⟩, h.owned, h.settled⟩

theorem Sane.alike (h : Sane S c) (ha : Alike S c c') : Sane S c' := by
  have hclaims : claims S c' = claims S c := by rw [claims, claims, ha.stack, ha.held]
  obtain ⟨hcnt, hpos, hactive, hrest, hrun, howned, hset⟩ := h
  rw [← ha.q] at hcnt hpos hactive hrest hrun howned
  rw [← hclaims] at howned
  refine ⟨hcnt, hpos, hactive, hrest, hrun, howned, ?_, ?_, ?_⟩
  · rw [ha.stack, ha.q]
    exact hset.front
  · rw [ha.stack]
    exact hset.below
  · rw [ha.q]
    exact hset.states

/-- A register of the queue is written, or the queue is enabled or disabled. -/
structure Poke (S : Subclass ε ι σ κ) (c c' : Config σ κ) : Prop where
  poked : Poked S c c'
  triggers : ∀ x ∈ c'.stack, x.isResume = false
  short : c'.q.enabled = true → c'.q.len < 0x4000 ∨ c.q.enabled = true ∧ c'.q.len = c.q.len

theorem Poke.trans (h : Poke S c c₁) (h' : Poke S c₁ c') : Poke S c c' := by
  refine ⟨poked_trans h.poked h'.poked, h'.triggers, fun he => ?_⟩
  rcases h'.short he with hlt | ⟨he₁, hl⟩
  · exact .inl hlt
  · rw [hl]
    exact h.short he₁

theorem poke_rest (hp : Poked S c c') (hs' : c'.stack = [])
    (hl : c'.q.enabled = true → c'.q.len < 0x4000 ∨ c.q.enabled = true ∧ c'.q.len = c.q.len) : Poke S c c' := by
  refine ⟨hp, fun x hx => ?_, hl⟩
  rw [hs'] at hx
  cases hx

theorem poke_regUpdated (S : Subclass ε ι σ κ) (hs : c.stack = []) : Poke S c (regUpdated c) := by
  refine ⟨poked_regUpdated hs, fun x hx => ?_, fun he => .inr ⟨he, rfl⟩⟩
  simp only [regUpdated, hs, List.append_nil] at hx
  split at hx
  · simp only [trigger, List.mem_cons, List.not_mem_nil, or_false] at hx
    rcases hx with rfl | rfl | rfl
    · rfl
    · rfl
    · rfl
  · cases hx

theorem poke_registers (S : Subclass ε ι σ κ) (hs : c.stack = []) (head tail : ℕ) :
    Poke S c { c with q := { c.q with regHead := head, regTail := tail } } := by
  refine poke_rest ⟨hs, fun x hx => ?_, rfl, rfl, rfl, rfl, rfl, rfl⟩ hs fun he => .inr ⟨he, rfl⟩
  rw [hs] at hx
  cases hx

theorem poke_program {client : σ} (hs : c.stack = []) (base len head descLen : ℕ) (enabled : Bool)
    (hh : S.held client = S.held c.client) (hl : enabled = true → len < 0x4000) :
    Poke S c (regUpdated { c with
      q := { c.q with base := base, len := len, regHead := head, descLen := descLen, enabled := enabled }
      client := client }) := by
  have h : Poke S c { c with
      q := { c.q with base := base, len := len, regHead := head, descLen := descLen, enabled := enabled }
      client := client } := by
    refine poke_rest ⟨hs, fun x hx => ?_, rfl, hh, rfl, rfl, rfl, rfl⟩ hs fun he => .inl (hl he)
    rw [hs] at hx
    cases hx
  exact h.trans (poke_regUpdated S hs)

theorem poke_disable (S : Subclass ε ι σ κ) (hs : c.stack = []) : Poke S c (disable c) := by
  refine poke_rest ⟨hs, fun x hx => ?_, rfl, rfl, rfl, rfl, rfl, rfl⟩ hs fun he => ?_
  · change x ∈ c.stack at hx
    rw [hs] at hx
    cases hx
  · cases he

/-- What `reset` leaves behind. -/
structure Cleared (S : Subclass ε ι σ κ) (c : Config σ κ) : Prop where
  disabled : c.q.enabled = false
  stack : c.stack = []
  first_pos : c.q.activeFirstPos = 0
  cnt : c.q.activeCnt = 0
  empty : ∀ p, c.q.states p = .empty
  held : S.held c.client = []

theorem Cleared.sane (h : Cleared S c) : Sane S c := by
  have hclaims : claims S c = [] := by rw [claims, h.stack, h.held]; rfl
  refine ⟨?_, ?_, fun p hp => ?_, fun p _ => h.empty p, fun he => ?_, ⟨?_, fun p s => ?_⟩, .of_none ?_ fun p => ?_⟩
  · rw [h.cnt]
    exact Nat.zero_le _
  · rw [h.first_pos]
    decide
  · rw [h.cnt] at hp
    exact absurd hp (Nat.not_lt_zero _)
  · rw [h.disabled] at he
    cases he
  · rw [hclaims]
    exact List.nodup_nil
  · rw [hclaims, h.empty p]
    simp only [List.not_mem_nil, false_iff, not_and]
    rintro rfl
    exact id
  · rw [h.stack]
    simp
  · rw [h.empty p]
    simp

/-- What a step of the device does to one of its queues. -/
inductive Touch (S : Subclass ε ι σ κ) (c c' : Config σ κ) : Prop
  | alike (h : Alike S c c')
  | exec (env : Env ε) (cmd : Cmd κ) (rest : List (Cmd κ)) (c₁ : Config σ κ) (hs : c.stack = cmd :: rest)
      (he : exec S env { c with stack := rest } cmd = .ok c₁) (h : Alike S c₁ c')
  | poke (h : Poke S c c')
  | receive (env : Env ε) (x : ι) (hs : c.stack = []) (h : receive S env c x = .ok c')
  | reset (hs : c.stack = []) (hlog : c'.log = c.log) (h : Cleared S c')

theorem Touch.same (h : c' = c) : Touch S c c' := by
  rw [h]
  exact .alike (.refl S c)

theorem Sane.poke (h : Sane S c) (hp : Poke S c c') (hf : Fit c.q c'.q) : Sane S c' := by
  obtain ⟨hp, -, hshort⟩ := hp
  obtain ⟨hcnt, hpos, hactive, hrest, hrun, howned, hset⟩ := h
  refine ⟨?_, ?_, fun p hlt => ?_, fun p hle => ?_, fun he => ⟨?_, ?_⟩, ?_, .of_none (fun x hx => (hp.pending x hx).2) ?_⟩
  · rw [hp.cnt]
    exact hcnt
  · rw [hp.first_pos]
    exact hpos
  · rw [hp.first_pos, hp.cnt] at hlt
    have hlen : c'.q.len = c.q.len := by
      rcases hf.len with h0 | hl
      · rw [h0] at hlt
        exact absurd hlt (Nat.not_lt_zero _)
      · exact hl
    rw [hp.states, hp.ctxs, hp.first_pos, hp.first_idx, hlen]
    exact hactive p hlt
  · rw [hp.first_pos, hp.cnt] at hle
    rw [hp.states]
    exact hrest p hle
  · rw [hp.first_idx]
    rcases hf.idx he with ⟨hen, hl⟩ | hlt
    · rw [hl]
      exact (hrun hen).1
    · exact hlt
  · rcases hshort he with hlt | ⟨hen, hl⟩
    · exact hlt
    · rw [hl]
      exact (hrun hen).2
  · rw [hp.claims_eq, hp.states]
    exact howned
  · rw [hp.states]
    exact hset.states

theorem Sane.receive {env : Env ε} {x : ι} (h : Sane S c) (hs : c.stack = [])
    (hr : DescriptorQueue.receive S env c x = .ok c') : Sane S c' := by
  obtain ⟨k, rfl⟩ := receive_ok hr
  obtain ⟨hcnt, hpos, hactive, hrest, hrun, howned, hset⟩ := h
  have hresume : ∀ x ∈ k.toList.map Cmd.resume ++ c.stack, x.claims = [] ∧ x.isWriteback = false := by
    rw [hs, List.append_nil]
    intro x hx
    obtain ⟨r, -, rfl⟩ := List.mem_map.mp hx
    exact ⟨rfl, rfl⟩
  have hclaims : claims S { c with stack := k.toList.map Cmd.resume ++ c.stack } = claims S c := by
    rw [claims, claims, List.flatMap_eq_nil_iff.mpr fun x hx => (hresume x hx).1, hs]
    rfl
  refine ⟨hcnt, hpos, hactive, hrest, hrun, ?_, .of_none (fun x hx => (hresume x hx).2) hset.states⟩
  rw [hclaims]
  exact howned

theorem Sane.touch (h : Sane S c) (hl : Live c) (ht : Touch S c c') (hf : Fit c.q c'.q) : Sane S c' := by
  cases ht with
  | alike ha => exact h.alike ha
  | exec env cmd rest c₁ hs he ha =>
    have hi := h.inv (hl (by rw [hs]; simp))
    exact (sane_of_inv (hi.exec hs he)).alike ha
  | poke hp => exact h.poke hp hf
  | receive env x hs hr => exact h.receive hs hr
  | reset _ _ hc => exact hc.sane

theorem sane_of_unused (h : Unused S c) : Sane S c :=
  Cleared.sane ⟨h.disabled, h.stack, h.first_pos, h.cnt, h.empty, h.held⟩

/-- A ring access stays within the ring that the queue has been given. -/
def Confined (q : QueueBase) : Event → Prop
  | .fetch _ idx cnt addr => addr = (q.base + idx * q.descLen) % 0x10000000000000000 ∧ idx + cnt ≤ q.len
  | .writeBack _ idx cnt addr _ => addr = (q.base + idx * q.descLen) % 0x10000000000000000 ∧ idx + cnt ≤ q.len
  | .headWriteBack _ idx cnt _ bytes => bytes = leBytes 4 ((idx + cnt) % q.len) ∧ idx + cnt ≤ q.len
  | _ => True

theorem confined_of_isRing {q : QueueBase} {e : Event} (h : e.isRing = false) : Confined q e := by
  cases e with
  | fetch pos idx cnt addr => cases h
  | writeBack pos idx cnt addr bytes => cases h
  | headWriteBack pos idx cnt addr bytes => cases h
  | process p idx => trivial
  | dataRead p addr len => trivial
  | dataWrite p addr bytes => trivial
  | call o => trivial
  | interrupt => trivial

theorem confined_fetch (h : Inv S c) : Confined c.q (.fetch c.q.fetchPos c.q.nextIdx c.q.fetchCnt c.q.fetchAddr) :=
  ⟨rfl, (fetchCnt_bounds c.q (Nat.lt_of_le_of_lt (Nat.zero_le _) h.window.idx_lt)).2.2⟩

theorem confined_writeback (h : Inv S c) : Confined c.q (writebackEvent S c) := by
  have hlen := (writebackCnt_bounds c.q h.window.idx_lt h.len_lt).2
  unfold writebackEvent
  split
  · exact ⟨rfl, hlen⟩
  · exact ⟨rfl, hlen⟩

theorem exec_confined {env : Env ε} {cmd : Cmd κ} {rest : List (Cmd κ)} (h : Inv S c)
    (he : exec S env { c with stack := rest } cmd = .ok c') :
    ∃ new, c'.log = c.log ++ new ∧ ∀ e ∈ new, Confined c.q e := by
  have hring := exec_ring (c := { c with stack := rest }) h.enabled he
  obtain ⟨new, hlog⟩ := exec_log (c := { c with stack := rest }) h.enabled he
  refine ⟨new, hlog, fun e hm => ?_⟩
  by_cases hr : e.isRing = false
  · exact confined_of_isRing hr
  have hm' : e ∈ ringLog new := List.mem_filter.mpr ⟨hm, by simpa using hr⟩
  have hsplit : ringLog c'.log = ringLog c.log ++ ringLog new := by rw [hlog, ringLog_append]
  rcases hring with ⟨-, -, hl, -⟩ | ⟨-, -, -, hl, -⟩ | ⟨-, -, -, hl, -⟩ | ⟨pos, n, -, -, hl, -⟩
  · rw [hl] at hsplit
    rw [List.self_eq_append_right.mp hsplit] at hm'
    cases hm'
  · rw [hl] at hsplit
    rw [← List.append_cancel_left hsplit, List.mem_singleton] at hm'
    rw [hm']
    exact confined_fetch h
  · rw [hl] at hsplit
    rw [← List.append_cancel_left hsplit, List.mem_singleton] at hm'
    rw [hm']
    exact confined_writeback h
  · rw [hl] at hsplit
    rw [List.self_eq_append_right.mp hsplit] at hm'
    cases hm'

theorem Touch.confined (ht : Touch S c c') (h : Sane S c) (hl : Live c) :
    ∃ new, c'.log = c.log ++ new ∧ ∀ e ∈ new, c.q.enabled = true ∧ Confined c.q e := by
  have hnone : c'.log = c.log → ∃ new, c'.log = c.log ++ new ∧ ∀ e ∈ new, c.q.enabled = true ∧ Confined c.q e := by
    intro hlog
    exact ⟨[], by rw [hlog, List.append_nil], by simp⟩
  cases ht with
  | alike ha => exact hnone ha.log
  | exec env cmd rest c₁ hs he ha =>
    have hen : c.q.enabled = true := hl (by rw [hs]; simp)
    obtain ⟨new, hlog, hnew⟩ := exec_confined (h.inv hen) he
    exact ⟨new, ha.log.trans hlog, fun e hm => ⟨hen, hnew e hm⟩⟩
  | poke hp => exact hnone hp.poked.log
  | receive env x hs hr =>
    obtain ⟨k, rfl⟩ := receive_ok hr
    exact hnone rfl
  | reset _ hlog _ => exact hnone hlog

theorem poke_refl (S : Subclass ε ι σ κ) (hs : c.stack = []) : Poke S c c := by
  refine poke_rest (poked_refl hs) hs fun he => .inr ⟨he, rfl⟩

theorem poke_update {f : ℕ → Config σ κ} {i j : ℕ} (hs : (f i).stack = []) (h : (f j).stack = [] → Poke S (f j) c) :
    Poke S (f i) (Function.update f j c i) := by
  by_cases hj : i = j
  · subst hj
    rw [Function.update_self]
    exact h hs
  · rw [Function.update_of_ne hj]
    exact poke_refl S hs

/-- A register write pokes a queue or clears it. -/
def Written (S : Subclass ε ι σ κ) (c c' : Config σ κ) : Prop := Poke S c c' ∨ c'.log = c.log ∧ Cleared S c'

theorem written_same (S : Subclass ε ι σ κ) (hs : c.stack = []) (h : c' = c) : Written S c c' := by
  rw [h]
  exact .inl (poke_refl S hs)

theorem Poke.written (h : Poke S c c₁) (hw : Written S c₁ c') : Written S c c' := by
  rcases hw with h' | ⟨hlog, hc⟩
  · exact .inl (h.trans h')
  · exact .inr ⟨hlog.trans h.poked.log, hc⟩

theorem Written.touch (h : Written S c c') (hs : c.stack = []) : Touch S c c' := by
  rcases h with hp | ⟨hlog, hc⟩
  · exact .poke hp
  · exact .reset hs hlog hc

end

variable {d d' : Device} {i : ℕ}

theorem poke_rxTailUpdated (hs : (d.rxqs i).stack = []) (j : ℕ) :
    Poke LanRx.subclass (d.rxqs i) ((d.rxTailUpdated j).rxqs i) := by
  unfold Device.rxTailUpdated
  split
  · exact poke_update hs (poke_regUpdated LanRx.subclass)
  · exact poke_refl LanRx.subclass hs

theorem poke_txTailUpdated (hs : (d.txqs i).stack = []) (j : ℕ) :
    Poke LanTx.subclass (d.txqs i) ((d.txTailUpdated j).txqs i) := by
  unfold Device.txTailUpdated
  split
  · exact poke_update hs (poke_regUpdated LanTx.subclass)
  · exact poke_refl LanTx.subclass hs

theorem poke_txQenaUpdated (ht : Tidy d) (hs : (d.txqs i).stack = []) (j : ℕ) :
    Poke LanTx.subclass (d.txqs i) ((d.txQenaUpdated j).txqs i) := by
  rcases ht.txQenaUpdated_cases j with ⟨-, hd⟩ | ⟨-, -, hd⟩
  · rw [hd]
    exact poke_refl LanTx.subclass hs
  · rw [hd]
    refine poke_update hs fun hnil => ?_
    exact poke_program hnil _ _ _ _ true rfl fun _ => Nat.mod_lt _ (by decide)

theorem poke_rxQenaUpdated {j : ℕ} (hs : (d.rxqs i).stack = []) (h : d.rxQenaUpdated j = .ok d') :
    Poke LanRx.subclass (d.rxqs i) (d'.rxqs i) := by
  rcases rxQenaUpdated_cases h with ⟨-, -, c, val, hc, rfl⟩ | ⟨-, -, val, rfl⟩ | ⟨-, rfl⟩
  · refine poke_update hs fun hnil => ?_
    rw [rxEnable_ok hc]
    exact poke_program hnil _ _ _ _ true rfl fun _ => Nat.lt_trans (Nat.mod_lt _ (by decide)) (by decide)
  · exact poke_update hs (poke_disable LanRx.subclass)
  · exact poke_refl LanRx.subclass hs

theorem written_rx {n : Notify} (ht : Tidy d) (hs : d.calls = []) (hn : d.notify n = .ok d') (i : ℕ) :
    Written LanRx.subclass (d.rxqs i) (d'.rxqs i) := by
  have hnil := (ht.rxqs i).at_rest hs
  cases n with
  | tailUpdated j rx =>
    cases rx
    · rw [← Except.ok.inj hn]
      apply written_same LanRx.subclass hnil
      rw [(modifiesOnly_txTailUpdated d j).rx i (by simp)]
    · rw [← Except.ok.inj hn]
      exact .inl (poke_rxTailUpdated hnil j)
  | qenaUpdated j rx =>
    cases rx
    · rw [← Except.ok.inj hn]
      exact written_same LanRx.subclass hnil (congrFun (alike_txQenaUpdated ht j).2 i)
    · exact .inl (poke_rxQenaUpdated hnil hn)
  | atqRegUpdated =>
    rw [← Except.ok.inj hn]
    exact written_same LanRx.subclass hnil rfl
  | reset =>
    rw [← Except.ok.inj hn]
    exact .inr ⟨rfl, rfl, hnil, rfl, rfl, fun _ => rfl, rfl⟩
  | _ =>
    rw [notify_silent rfl] at hn
    rw [← Except.ok.inj hn]
    exact written_same LanRx.subclass hnil rfl

theorem written_tx {n : Notify} (ht : Tidy d) (hs : d.calls = []) (hn : d.notify n = .ok d') (i : ℕ) :
    Written LanTx.subclass (d.txqs i) (d'.txqs i) := by
  have hnil := (ht.txqs i).at_rest hs
  cases n with
  | tailUpdated j rx =>
    cases rx
    · rw [← Except.ok.inj hn]
      exact .inl (poke_txTailUpdated hnil j)
    · rw [← Except.ok.inj hn]
      apply written_same LanTx.subclass hnil
      rw [(modifiesOnly_rxTailUpdated d j).tx i (by simp)]
  | qenaUpdated j rx =>
    cases rx
    · rw [← Except.ok.inj hn]
      exact .inl (poke_txQenaUpdated ht hnil j)
    · apply written_same LanTx.subclass hnil
      rcases rxQenaUpdated_cases hn with ⟨-, -, c, val, -, rfl⟩ | ⟨-, -, val, rfl⟩ | ⟨-, rfl⟩
      · rfl
      · rfl
      · rfl
  | atqRegUpdated =>
    rw [← Except.ok.inj hn]
    exact written_same LanTx.subclass hnil rfl
  | reset =>
    rw [← Except.ok.inj hn]
    exact .inr ⟨rfl, rfl, hnil, rfl, rfl, fun _ => rfl, rfl⟩
  | _ =>
    rw [notify_silent rfl] at hn
    rw [← Except.ok.inj hn]
    exact written_same LanTx.subclass hnil rfl

/-- A reset keeps the commands that the admin queue waits for, so there must be none. -/
theorem written_atq {n : Notify} (ht : Tidy d) (hs : d.calls = []) (hidle : d.atq.client.pending = [])
    (hn : d.notify n = .ok d') : Written AdminQueue.subclass d.atq d'.atq := by
  have hnil := ht.atq.at_rest hs
  cases n with
  | tailUpdated j rx =>
    apply written_same AdminQueue.subclass hnil
    cases rx
    · rw [← Except.ok.inj hn, (modifiesOnly_txTailUpdated d j).atq (by simp)]
    · rw [← Except.ok.inj hn, (modifiesOnly_rxTailUpdated d j).atq (by simp)]
  | qenaUpdated j rx =>
    cases rx
    · rw [← Except.ok.inj hn]
      have ha := (alike_txQenaUpdated ht j).1
      refine .inl (poke_rest ⟨hnil, ?_, ha.log, ha.held, ?_, ?_, ?_, ?_⟩ (ha.stack.trans hnil) ?_)
      · rw [ha.stack, hnil]
        simp
      · rw [ha.q]
      · rw [ha.q]
      · rw [ha.q]
      · rw [ha.q]
      · rw [ha.q]
        exact fun he => .inr ⟨he, rfl⟩
    · apply written_same AdminQueue.subclass hnil
      rcases rxQenaUpdated_cases hn with ⟨-, -, c, val, -, rfl⟩ | ⟨-, -, val, rfl⟩ | ⟨-, rfl⟩
      · rfl
      · rfl
      · rfl
  | atqRegUpdated =>
    rw [← Except.ok.inj hn]
    exact .inl (poke_program hnil _ _ _ _ _ rfl fun _ => Nat.lt_trans (Nat.mod_lt _ (by decide)) (by decide))
  | reset =>
    rw [← Except.ok.inj hn]
    exact .inr ⟨rfl, rfl, hnil, rfl, rfl, fun _ => rfl, hidle⟩
  | _ =>
    rw [notify_silent rfl] at hn
    rw [← Except.ok.inj hn]
    exact written_same AdminQueue.subclass hnil rfl

/-- The admin queue keeps a context only while the answer to it is on the stack. -/
def Answering (d : Device) : Prop := d.atq.client.pending.length = d.atq.stack.countP Cmd.isResume

theorem Answering.idle (h : Answering d) (hs : d.atq.stack = []) : d.atq.client.pending = [] := by
  rw [Answering, hs, List.countP_nil, List.length_eq_zero_iff] at h
  exact h

theorem Answering.touch (h : Answering d) (hl : Live d.atq) (ht : Touch AdminQueue.subclass d.atq d'.atq) :
    Answering d' := by
  cases ht with
  | alike ha =>
    have hp : d'.atq.client.pending = d.atq.client.pending := ha.held
    rw [Answering, hp, ha.stack]
    exact h
  | exec env cmd rest c hs he ha =>
    have hp : d'.atq.client.pending = c.client.pending := ha.held
    rw [Answering, hp, ha.stack]
    exact ExactlyOnce.pending_exec (hl (by rw [hs]; simp)) h hs he
  | poke hp =>
    have hheld : d'.atq.client.pending = d.atq.client.pending := hp.poked.held
    rw [Answering, hheld, h.idle hp.poked.rest, List.countP_eq_zero.mpr fun x hx => by simp [hp.triggers x hx]]
    rfl
  | receive env x => exact x.elim
  | reset _ _ hc =>
    have hp : d'.atq.client.pending = [] := hc.held
    rw [Answering, hp, hc.stack]
    rfl

theorem touch_rx {x : Input} (ht : Tidy d) (hsh : Shape d.calls) (hs : Step d x d') (i : ℕ) :
    Touch LanRx.subclass (d.rxqs i) (d'.rxqs i) := by
  cases hs with
  | run env call rest hs hr =>
    cases ran_of_run hs hr with
    | done => exact .same rfl
    | atq env cmd rest c hc hs he =>
      rcases exec_txqs (ht.atq.live (by rw [hs]; simp)) hs he with ⟨-, hn, -⟩ | ⟨j, ctx, -, -, hn, -⟩
      · rw [hn]
        exact .same rfl
      · rw [hn]
        exact .same (congrFun (alike_txQenaUpdated (ht.execAtq hc hs he) j).2 i)
    | rx j env cmd rest c hc hs he =>
      by_cases hj : i = j
      · subst hj
        refine .exec env cmd rest c hs he ?_
        change Alike _ c (Function.update d.rxqs i c i)
        rw [Function.update_self]
        exact .refl _ c
      · exact .same (Function.update_of_ne hj _ _)
    | tx => exact .same rfl
    | tailUpdated idx rest hs =>
      exact .poke (poke_rxTailUpdated (d := { d with calls := rest }) (stack_of_tailUpdated hsh ht hs i) idx)
  | write env addr val hv hs hw =>
    have hnil := (ht.rxqs i).at_rest hs
    obtain ⟨r, -, hcases⟩ := regWrite_cases hw
    have hp : Poke LanRx.subclass (d.rxqs i) ((d.setRegs r.1).rxqs i) := poke_registers LanRx.subclass hnil _ _
    rcases hcases with ⟨-, rfl⟩ | ⟨n, -, hn⟩
    · exact .poke hp
    · exact (hp.written (written_rx (ht.setRegs r.1) hs hn i)).touch hnil
  | packet env hint data hs hp =>
    rcases packetReceived_cases hp with rfl | ⟨j, c, hc, rfl⟩
    · exact .same rfl
    · by_cases hj : i = j
      · subst hj
        refine .receive (env.env env.rx) data ((ht.rxqs i).at_rest hs) ?_
        change DescriptorQueue.receive _ _ _ _ = Except.ok (Function.update d.rxqs i c i)
        rw [Function.update_self]
        exact hc
      · exact .same (Function.update_of_ne hj _ _)

theorem touch_tx {x : Input} (ht : Tidy d) (hsh : Shape d.calls) (hs : Step d x d') (i : ℕ) :
    Touch LanTx.subclass (d.txqs i) (d'.txqs i) := by
  cases hs with
  | run env call rest hs hr =>
    cases ran_of_run hs hr with
    | done => exact .same rfl
    | atq env cmd rest c hc hs he =>
      rcases exec_txqs (ht.atq.live (by rw [hs]; simp)) hs he with ⟨-, hn, -⟩ | ⟨j, ctx, -, -, hn, -⟩
      · rw [hn]
        exact .same rfl
      · rw [hn]
        exact .poke (poke_txQenaUpdated (ht.execAtq hc hs he) (stack_of_atq hsh ht hc i) j)
    | rx => exact .same rfl
    | tx j env cmd rest c hc hs he =>
      by_cases hj : i = j
      · subst hj
        refine .exec env cmd rest c hs he ?_
        change Alike _ c (Function.update d.txqs i c i)
        rw [Function.update_self]
        exact .refl _ c
      · exact .same (Function.update_of_ne hj _ _)
    | tailUpdated idx rest hs =>
      refine .same ?_
      rw [(modifiesOnly_rxTailUpdated { d with calls := rest } idx).tx i (by simp)]
  | write env addr val hv hs hw =>
    have hnil := (ht.txqs i).at_rest hs
    obtain ⟨r, -, hcases⟩ := regWrite_cases hw
    have hp : Poke LanTx.subclass (d.txqs i) ((d.setRegs r.1).txqs i) := poke_registers LanTx.subclass hnil _ _
    rcases hcases with ⟨-, rfl⟩ | ⟨n, -, hn⟩
    · exact .poke hp
    · exact (hp.written (written_tx (ht.setRegs r.1) hs hn i)).touch hnil
  | packet env hint data hs hp =>
    rcases packetReceived_cases hp with rfl | ⟨j, c, -, rfl⟩
    · exact .same rfl
    · exact .same rfl

theorem touch_atq {x : Input} (ht : Tidy d) (ha : Answering d) (hs : Step d x d') :
    Touch AdminQueue.subclass d.atq d'.atq := by
  cases hs with
  | run env call rest hs hr =>
    cases ran_of_run hs hr with
    | done => exact .same rfl
    | atq env cmd rest c hc hs he =>
      refine .exec env cmd rest c hs he ?_
      rcases exec_txqs (ht.atq.live (by rw [hs]; simp)) hs he with ⟨-, hn, -⟩ | ⟨j, ctx, -, -, hn, -⟩
      · rw [hn]
        exact .refl _ c
      · rw [hn]
        exact (alike_txQenaUpdated (ht.execAtq hc hs he) j).1
    | rx => exact .same rfl
    | tx => exact .same rfl
    | tailUpdated idx rest hs =>
      refine .same ?_
      rw [(modifiesOnly_rxTailUpdated { d with calls := rest } idx).atq (by simp)]
  | write env addr val hv hs hw =>
    have hnil := ht.atq.at_rest hs
    obtain ⟨r, -, hcases⟩ := regWrite_cases hw
    have hp : Poke AdminQueue.subclass d.atq (d.setRegs r.1).atq := poke_registers AdminQueue.subclass hnil _ _
    rcases hcases with ⟨-, rfl⟩ | ⟨n, -, hn⟩
    · exact .poke hp
    · exact (hp.written (written_atq (ht.setRegs r.1) hs (ha.idle hnil) hn)).touch hnil
  | packet env hint data hs hp =>
    rcases packetReceived_cases hp with rfl | ⟨j, c, -, rfl⟩
    · exact .same rfl
    · exact .same rfl

theorem Answering.reachable (h : device.Reachable d) : Answering d := by
  induction h with
  | start h =>
    have hp : _ = [] := h.atq.held
    rw [Answering, h.atq.stack]
    exact congrArg List.length hp
  | step hs h ih =>
    obtain ⟨x, hx⟩ := h
    have ht := Tidy.reachable hs
    exact ih.touch ht.atq.live (touch_atq ht ih hx)

structure AllSane (d : Device) : Prop where
  atq : Sane AdminQueue.subclass d.atq
  rx : ∀ i, Sane LanRx.subclass (d.rxqs i)
  tx : ∀ i, Sane LanTx.subclass (d.txqs i)

theorem AllSane.reachable (h : orderly.Reachable d) : AllSane d := by
  induction h with
  | start h => exact ⟨sane_of_unused h.atq, fun i => sane_of_unused (h.rxqs i), fun i => sane_of_unused (h.txqs i)⟩
  | step hs h ih =>
    obtain ⟨⟨x, hx⟩, hf⟩ := h
    have hr := hs.of_restrict
    have ht := Tidy.reachable hr
    have hsh := Shape.reachable hr
    refine ⟨?_, fun i => ?_, fun i => ?_⟩
    · exact ih.atq.touch ht.atq.live (touch_atq ht (.reachable hr) hx) (hf .atq)
    · exact (ih.rx i).touch (ht.rxqs i).live (touch_rx ht hsh hx i) (hf (.rx i))
    · exact (ih.tx i).touch (ht.txqs i).live (touch_tx ht hsh hx i) (hf (.tx i))

theorem AllSane.window (h : AllSane d) (e : RingQueue) (he : (baseOf d e).enabled = true) : Window (baseOf d e) := by
  cases e with
  | atq => exact (h.atq.inv he).window
  | rx i => exact ((h.rx i).inv he).window
  | tx i => exact ((h.tx i).inv he).window

theorem bind_state {α β : Type} {x : Except Fault α} {f : α → Except Fault β} (hx : x ≠ .error .stateAssertion)
    (hf : ∀ a, f a ≠ .error .stateAssertion) : (x >>= f) ≠ .error .stateAssertion := by
  cases x with
  | error e =>
    intro h
    exact hx (congrArg Except.error (Except.error.inj h))
  | ok a => exact hf a

theorem Sane.exec_state {ε ι σ κ : Type} {S : Subclass ε ι σ κ} {env : Env ε} {c : Config σ κ} {cmd : Cmd κ}
    {rest : List (Cmd κ)} (h : Sane S c) (hl : Live c) (hs : c.stack = cmd :: rest) :
    exec S env { c with stack := rest } cmd ≠ .error .stateAssertion :=
  fun he => (h.inv (hl (by rw [hs]; simp))).no_assertion ⟨env, cmd, rest, hs, he⟩

theorem run_state {env : DeviceEnv} {call : Call} {calls : List Call} (ht : Tidy d) (h : AllSane d) :
    Device.run env { d with calls := calls } call ≠ .error .stateAssertion := by
  cases call with
  | atq =>
    cases hs : d.atq.stack with
    | nil => simp [Device.run, hs]
    | cons cmd rest =>
      simp only [Device.run, hs]
      exact bind_state (h.atq.exec_state ht.atq.live hs) (by simp)
  | rx i =>
    cases hs : (d.rxqs i).stack with
    | nil => simp [Device.run, hs]
    | cons cmd rest =>
      simp only [Device.run, hs]
      exact bind_state ((h.rx i).exec_state (ht.rxqs i).live hs) (by simp)
  | tx i =>
    cases hs : (d.txqs i).stack with
    | nil => simp [Device.run, hs]
    | cons cmd rest =>
      simp only [Device.run, hs]
      exact bind_state ((h.tx i).exec_state (ht.txqs i).live hs) (by simp)
  | tailUpdated idx =>
    simp only [Device.run]
    split
    · simp
    · simp

theorem rxQenaUpdated_state : d.rxQenaUpdated i ≠ .error .stateAssertion := by
  unfold Device.rxQenaUpdated
  dsimp only
  split
  · refine bind_state ?_ (by simp)
    unfold rxEnable
    split
    · simp
    · split
      · simp
      · simp
  · split
    · simp
    · simp

theorem notify_state (d : Device) (n : Notify) : d.notify n ≠ .error .stateAssertion := by
  cases n with
  | tailUpdated j rx => cases rx <;> simp [Device.notify]
  | qenaUpdated j rx =>
    cases rx
    · simp [Device.notify]
    · exact rxQenaUpdated_state
  | _ => simp [Device.notify]

theorem regWrite_state (env : DeviceEnv) (d : Device) (addr val : ℕ) :
    d.regWrite env addr val ≠ .error .stateAssertion := by
  refine bind_state ?_ fun r => ?_
  · unfold regMemWrite32
    split
    · simp
    · simp
  · generalize d.setRegs r.1 = d'
    induction r.2 generalizing d' with
    | nil => simp [pure, Except.pure]
    | cons n notes ih =>
      rw [List.foldlM_cons]
      exact bind_state (notify_state d' n) ih

theorem packetReceived_state (env : DeviceEnv) (d : Device) (hint : Option ℕ) (data : List UInt8) :
    d.packetReceived env hint data ≠ .error .stateAssertion := by
  unfold Device.packetReceived
  dsimp only
  split
  · simp
  split
  · simp
  · refine bind_state (bind_state ?_ (by simp)) (by simp)
    change LanRx.receive _ _ _ _ ≠ _
    unfold LanRx.receive
    dsimp only
    repeat' split
    all_goals simp

theorem orderly_run (ht : Tidy d) (hs : Step d .run d') (hadd : ∀ i ctx, ¬AddsTxq d.atq i ctx) : Orderly d d' := by
  cases hs with
  | run env call rest hs hr =>
    have hran := ran_of_run hs hr
    have hkept := Kept.ran ht hran
    intro e
    cases e with
    | atq => exact .same (congrArg (fun p => p.2.1) hkept.atq) (congrArg (fun p => p.2.2.1) hkept.atq)
    | rx i => exact .same (congrArg (fun p => p.2.1) (hkept.rx i)) (congrArg (fun p => p.2.2.1) (hkept.rx i))
    | tx i =>
      by_cases hen : (d.txqs i).q.enabled = true
      · exact .same (congrArg (fun p => p.2.1) (hkept.tx i hen)) (congrArg (fun p => p.2.2.1) (hkept.tx i hen))
      have hnil := (ht.txqs i).live.stack_eq_nil (by simpa using hen)
      suffices h : d'.txqs i = d.txqs i by exact .same (by rw [baseOf, h]; rfl) (by rw [baseOf, h]; rfl)
      cases hran with
      | done => rfl
      | atq env cmd rest c hc hs he =>
        rcases exec_txqs (ht.atq.live (by rw [hs]; simp)) hs he with ⟨-, hn, -⟩ | ⟨j, ctx, ha, -⟩
        · rw [hn]
          rfl
        · exact absurd ha (hadd j ctx)
      | rx => rfl
      | tx j env cmd rest c hc hs he =>
        have hne : i ≠ j := by
          rintro rfl
          rw [hs] at hnil
          cases hnil
        exact Function.update_of_ne hne _ _
      | tailUpdated idx rest hs => rw [(modifiesOnly_rxTailUpdated { d with calls := rest } idx).tx i (by simp)]

theorem orderly_atq {b : Doorbell} {env : DeviceEnv} {val : ℕ} (hb : b.Valid) (hn : b.note = .atqRegUpdated)
    (hw : d.regWrite env b.addr val = .ok d') (hf : Fit d.atq.q d'.atq.q) : Orderly d d' := by
  have hd := doorbell_notify hb hw
  rw [hn] at hd
  have hd' := Except.ok.inj hd
  intro e
  cases e with
  | atq => exact hf
  | rx i =>
    rw [← hd']
    exact .same rfl rfl
  | tx i =>
    rw [← hd']
    exact .same rfl rfl

def fetchRun : Except Fault (Device × Device × Device × Device) := do
  let a ← zeroed.regWrite guestEnv 0x080400 1
  let b ← Device.run guestEnv { a with calls := [] } .atq
  let c ← b.regWrite guestEnv 0x080200 0x80000004
  let t ← Device.run guestEnv { c with calls := [] } .atq
  .ok (a, b, c, t)

def fetches (a b c t : Device) : Bool :=
  a.calls = [.atq] ∧ a.atq.q.enabled = false ∧ a.atq.stack.length = 0 ∧ b.calls = [] ∧ b.atq.q.activeCnt = 0 ∧
    b.atq.q.activeFirstIdx = 0 ∧ c.calls = [.atq] ∧ c.atq.q.len = 4 ∧ c.atq.q.activeCnt = 0 ∧ c.atq.q.enabled = true ∧
    (c.atq.stack.all fun x => match x with | .processLoop _ _ => false | _ => true) ∧ t.atq.q.activeCnt = 1 ∧
    t.atq.q.enabled = true ∧ c.atq.log = [] ∧ t.atq.log = [.fetch 0 0 1 0]

theorem fetchRun_eq : fetchRun.toOption.map (fun r => fetches r.1 r.2.1 r.2.2.1 r.2.2.2) = some true := by
  decide +kernel

theorem fetchRun_orderly :
    ∃ c t, orderly.Reachable c ∧ device.step c t ∧ Orderly c t ∧ t.atq.q.activeCnt = 1 ∧ c.atq.q.enabled = true ∧
      t.atq.q.enabled = true ∧ logOf c .atq = [] ∧ logOf t .atq = [.fetch 0 0 1 0] := by
  obtain ⟨r, hr, hobs⟩ := ok_of_map fetchRun_eq
  obtain ⟨a, ha, hr⟩ := bind_ok hr
  obtain ⟨b, hb, hr⟩ := bind_ok hr
  obtain ⟨c, hc, hr⟩ := bind_ok hr
  obtain ⟨t, ht, hr⟩ := bind_ok hr
  cases hr
  simp only [fetches, decide_eq_true_eq] at hobs
  obtain ⟨hac, hdis, hast, hbc, hcnt, hidx, hcc, hlen, -, hen, hcmds, htcnt, hten, hclog, htlog⟩ := hobs
  have hnoadd : ∀ {x : Device}, (∀ y ∈ x.atq.stack, ∀ i j, y ≠ .processLoop i j) → ∀ i ctx, ¬AddsTxq x.atq i ctx := by
    rintro x hx i ctx ⟨p, q, rest, hs, -⟩
    exact hx _ (by rw [hs]; exact List.mem_cons_self) p q rfl
  have hstart : orderly.Reachable zeroed := .start zeroed_fresh
  have hsa : Step zeroed (.write 0x080400 1) a := .write guestEnv _ _ (by decide) rfl ha
  have hra : orderly.Reachable a := by
    refine .step hstart ⟨⟨_, hsa⟩, orderly_atq (b := .atqt) trivial rfl ha ⟨.inl rfl, fun he => ?_⟩⟩
    rw [hdis] at he
    cases he
  have hsb : Step a .run b := .run guestEnv .atq [] hac hb
  have hrb : orderly.Reachable b := by
    refine .step hra ⟨⟨_, hsb⟩, orderly_run (.reachable hra.of_restrict) hsb (hnoadd ?_)⟩
    rw [List.length_eq_zero_iff.mp hast]
    simp
  have hsc : Step b (.write 0x080200 0x80000004) c := .write guestEnv _ _ (by decide) hbc hc
  have hrc : orderly.Reachable c := by
    refine .step hrb ⟨⟨_, hsc⟩, orderly_atq (b := .atqlen) trivial rfl hc ⟨.inl hcnt, fun _ => .inr ?_⟩⟩
    rw [hidx, hlen]
    decide
  have hst : Step c .run t := .run guestEnv .atq [] hcc ht
  refine ⟨c, t, hrc, ⟨_, hst⟩, orderly_run (.reachable hrc.of_restrict) hst (hnoadd fun y hy i j => ?_), htcnt, hen, hten,
    hclog, htlog⟩
  rintro rfl
  have hall := List.all_eq_true.mp hcmds _ hy
  cases hall

/-- If the guest enables queues only with rings that fit them, the window of every enabled queue is
well formed in every state, and no assertion about the state of a descriptor fails. -/
theorem device_windows (d : Device) (h : orderly.Reachable d) :
    (∀ e, (baseOf d e).enabled = true → Window (baseOf d e)) ∧
      ∀ env, (∀ call rest, d.calls = call :: rest →
          Device.run env { d with calls := rest } call ≠ .error .stateAssertion) ∧
        (∀ addr val, d.regWrite env addr val ≠ .error .stateAssertion) ∧
        ∀ hint data, d.packetReceived env hint data ≠ .error .stateAssertion := by
  have hsane := AllSane.reachable h
  have ht := Tidy.reachable h.of_restrict
  exact ⟨hsane.window, fun env => ⟨fun _ _ _ => run_state ht hsane, regWrite_state env d, packetReceived_state env d⟩⟩

theorem device_windows_fetched : ∃ d, orderly.Reachable d ∧ d.atq.q.activeCnt = 1 ∧ Window d.atq.q := by
  obtain ⟨c, t, hc, hs, ho, hcnt, -, hen, -⟩ := fetchRun_orderly
  have ht : orderly.Reachable t := .step hc ⟨hs, ho⟩
  exact ⟨t, ht, hcnt, (device_windows t ht).1 .atq hen⟩

/-- Every access of a step to a ring is one of a queue that is enabled, and lies within the ring which
that queue was given. -/
theorem ring_accesses_confined (d d' : Device) (h : orderly.Reachable d) (hs : device.step d d') (e : RingQueue) :
    ∃ new, logOf d' e = logOf d e ++ new ∧
      ∀ x ∈ new, (baseOf d e).enabled = true ∧ Confined (baseOf d e) x := by
  have hsane := AllSane.reachable h
  have hr := h.of_restrict
  have ht := Tidy.reachable hr
  obtain ⟨x, hx⟩ := hs
  cases e with
  | atq => exact (touch_atq ht (.reachable hr) hx).confined hsane.atq ht.atq.live
  | rx i => exact (touch_rx ht (.reachable hr) hx i).confined (hsane.rx i) (ht.rxqs i).live
  | tx i => exact (touch_tx ht (.reachable hr) hx i).confined (hsane.tx i) (ht.txqs i).live

theorem ring_accesses_confined_fetch :
    ∃ d d', orderly.Reachable d ∧ device.step d d' ∧ logOf d' .atq = logOf d .atq ++ [.fetch 0 0 1 0] ∧
      Confined d.atq.q (.fetch 0 0 1 0) := by
  obtain ⟨c, t, hc, hs, -, -, -, -, hclog, htlog⟩ := fetchRun_orderly
  obtain ⟨new, hnew, hin⟩ := ring_accesses_confined c t hc hs .atq
  rw [hclog, htlog, List.nil_append] at hnew
  refine ⟨c, t, hc, hs, by rw [hclog, htlog]; rfl, (hin _ ?_).2⟩
  rw [← hnew]
  exact List.mem_cons_self

def ClearedAt (d : Device) : RingQueue → Prop
  | .atq => Cleared AdminQueue.subclass d.atq
  | .rx i => Cleared LanRx.subclass (d.rxqs i)
  | .tx i => Cleared LanTx.subclass (d.txqs i)

theorem Touch.quiet {ε ι σ κ : Type} {S : Subclass ε ι σ κ} {c c' : Config σ κ} (ht : Touch S c c') (hl : Live c)
    (hd : c.q.enabled = false) : c'.log = c.log := by
  cases ht with
  | alike ha => exact ha.log
  | exec env cmd rest c₁ hs he ha =>
    rw [hl (by rw [hs]; simp)] at hd
    cases hd
  | poke hp => exact hp.poked.log
  | receive env x hs hr =>
    obtain ⟨k, rfl⟩ := receive_ok hr
    rfl
  | reset _ hlog _ => exact hlog

theorem disabled_quiet (h : device.Reachable d) (hs : device.step d d') {e : RingQueue}
    (hd : (baseOf d e).enabled = false) : logOf d' e = logOf d e := by
  have ht := Tidy.reachable h
  obtain ⟨x, hx⟩ := hs
  cases e with
  | atq => exact (touch_atq ht (.reachable h) hx).quiet ht.atq.live hd
  | rx i => exact (touch_rx ht (.reachable h) hx i).quiet (ht.rxqs i).live hd
  | tx i => exact (touch_tx ht (.reachable h) hx i).quiet (ht.txqs i).live hd

theorem reset_cleared {env : DeviceEnv} {val : ℕ} (h : device.Reachable d) (hs : d.calls = []) (hv : val % 2 = 1)
    (hw : d.regWrite env pfgenCtrl val = .ok d') (e : RingQueue) : ClearedAt d' e ∧ logOf d' e = logOf d e := by
  have ht := Tidy.reachable h
  obtain ⟨r, hr, hcases⟩ := regWrite_cases hw
  have hnotes : r.2 = [.reset] := QueueStatus.write_reset hr hv
  have hd : d' = (d.setRegs r.1).reset := by
    rcases hcases with ⟨hsil, -⟩ | ⟨n, hn, hd⟩
    · have hq := hsil .reset (by rw [hnotes]; exact List.mem_cons_self)
      cases hq
    · rw [hnotes] at hn
      rw [← List.singleton_inj.mp hn] at hd
      exact (Except.ok.inj hd).symm
  rw [hd]
  cases e with
  | atq =>
    have hnil := ht.atq.at_rest hs
    exact ⟨⟨rfl, hnil, rfl, rfl, fun _ => rfl, (Answering.reachable h).idle hnil⟩, rfl⟩
  | rx i => exact ⟨⟨rfl, (ht.rxqs i).at_rest hs, rfl, rfl, fun _ => rfl, rfl⟩, rfl⟩
  | tx i => exact ⟨⟨rfl, (ht.txqs i).at_rest hs, rfl, rfl, fun _ => rfl, rfl⟩, rfl⟩

/-- A reset leaves nothing in flight in any queue, whatever the guest did before, and from then on a
queue neither reads nor writes memory until it is enabled again. -/
theorem reset_silences (d d' t : Device) (env : DeviceEnv) (val : ℕ) (h : device.Reachable d) (hs : d.calls = [])
    (hlt : val < 0x100000000) (hv : val % 2 = 1) (hw : d.regWrite env pfgenCtrl val = .ok d') (e : RingQueue)
    (hr : Relation.ReflTransGen (fun a b => device.step a b ∧ (baseOf b e).enabled = false) d' t) :
    ClearedAt d' e ∧ logOf t e = logOf d e := by
  obtain ⟨hc, hlog⟩ := reset_cleared h hs hv hw e
  have hdis : (baseOf d' e).enabled = false := by
    cases e with
    | atq => exact hc.disabled
    | rx i => exact hc.disabled
    | tx i => exact hc.disabled
  have hd' : device.Reachable d' := .step h ⟨_, .write env _ val hlt hs hw⟩
  have hrun : device.Reachable t ∧ (baseOf t e).enabled = false ∧ logOf t e = logOf d' e := by
    induction hr with
    | refl => exact ⟨hd', hdis, rfl⟩
    | tail _ hstep ih =>
      obtain ⟨hreach, hoff, hsame⟩ := ih
      exact ⟨.step hreach hstep.1, hstep.2, (disabled_quiet hreach hstep.1 hoff).trans hsame⟩
  exact ⟨hc, hrun.2.2.trans hlog⟩

def resetRun : Except Fault (Device × Device) := do
  let d ← guestWrites guestEnv 300 [(0x080000, 0x4000), (0x080200, 0x80000004), (0x080400, 1)] zeroed
  let d' ← d.regWrite guestEnv pfgenCtrl 1
  .ok (d, d')

theorem reset_silences_atq :
    ∃ d d', device.Reachable d ∧ d.regWrite guestEnv pfgenCtrl 1 = .ok d' ∧ d.atq.log ≠ [] ∧
      ClearedAt d' .atq ∧ logOf d' .atq = logOf d .atq := by
  have hrun : resetRun.toOption.map (fun r => r.1.atq.log.isEmpty) = some false := by decide +kernel
  obtain ⟨r, hr, hlen⟩ := ok_of_map hrun
  obtain ⟨d, hd, hr⟩ := bind_ok hr
  obtain ⟨d', hd', hr⟩ := bind_ok hr
  cases hr
  obtain ⟨hreach, hrest⟩ := guestWrites_reachable (by simp) (.start zeroed_fresh) rfl hd
  exact ⟨d, d', hreach, hd', List.isEmpty_eq_false_iff.mp hlen,
    reset_silences d d' d' guestEnv 1 hreach hrest (by decide) rfl hd' .atq .refl⟩

end Vmux.DeviceWindows
