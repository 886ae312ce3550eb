import Vmux.CascadeSteps
import Vmux.DeviceWindows

namespace Vmux.DoorbellTermination

open Bytes CircularWindow Transitions DescriptorQueue AdminQueue LanRx LanTx Registers Nic DoorbellRouting QueueReenable
open DeviceWindows TxTermination TxByteExact CascadeSteps
open TxUnits (triggerTxPacket_sent)

variable {d d' t : Device} {env : DeviceEnv} {i : ℕ}

/-- The innermost call that a doorbell has set off runs one command, with these answers of the environment. -/
def NestedCall (env : DeviceEnv) (d d' : Device) : Prop :=
  ∃ call rest, d.calls = call :: rest ∧ Device.run env { d with calls := rest } call = .ok d'

theorem NestedCall.ran (h : NestedCall env d d') : Ran d d' := by
  obtain ⟨call, rest, hs, hr⟩ := h
  exact ran_of_run hs hr

theorem NestedCall.step (h : NestedCall env d d') : Step d .run d' := by
  obtain ⟨call, rest, hs, hr⟩ := h
  exact .run env call rest hs hr

/-- If `trigger_tx_packet` is called next and finds a complete unit, then it has something to send. -/
def GetsOn (accept : ℕ → Bool) (d : Device) : Prop :=
  ∀ i calls rest sent, d.calls = .tx i :: calls → (d.txqs i).stack = .resume () :: rest →
    triggerTxPacket accept (d.txqs i).client.tso (ready (d.txqs i)) = .ok (some sent) →
    Moves accept (d.txqs i).client.tso (ready (d.txqs i))

/-- The guest gives the admin queue and the receive queues a ring only when none of their descriptors are in flight,
and one that has the descriptor with which the queue goes on. -/
def settled : Machine Device :=
  device.restrict fun d d' => Fit d.atq.q d'.atq.q ∧ ∀ i, Fit (d.rxqs i).q (d'.rxqs i).q

/-- A transmit queue that is not enabled is as a reset leaves it. -/
structure Standing (d : Device) : Prop where
  sane : AllSane d
  parked : ∀ i, (d.txqs i).q.enabled = false → (d.txqs i).q.activeCnt = 0 ∧ (d.txqs i).q.activeFirstIdx = 0

/-- `add_txqs` has enabled a queue of length 0, and `trigger_fetch` divides by it. -/
def Doomed (d : Device) : Prop :=
  ∃ i calls rest, d.calls = .tx i :: calls ∧ (d.txqs i).q.enabled = true ∧ (d.txqs i).q.len = 0 ∧
    (d.txqs i).stack = .triggerFetch :: rest

theorem Doomed.faults (h : Doomed d) : ¬NestedCall env d d' := by
  obtain ⟨i, calls, rest, hc, hen, hlen, hs⟩ := h
  rintro ⟨call, calls', hc', hr⟩
  rw [hc] at hc'
  cases hc'
  unfold Device.run at hr
  dsimp only at hr
  rw [hs] at hr
  obtain ⟨c, he, -⟩ := bind_ok hr
  change triggerFetch _ _ = _ at he
  unfold triggerFetch at he
  rw [if_neg (by simp [hen]), if_pos hlen] at he
  cases he

theorem Doomed.no_step {x : Input} (h : Doomed d) : ¬Step d x d' := by
  have hcalls : d.calls ≠ [] := by
    obtain ⟨i, calls, rest, hc, -⟩ := h
    rw [hc]
    simp
  intro hs
  cases hs with
  | run env call rest hs hr => exact h.faults ⟨call, rest, hs, hr⟩
  | write env addr val hv hs hw => exact hcalls hs
  | packet env hint data hs hp => exact hcalls hs

/-- What a step does to the ring of a transmit queue: it stays, a reset clears it, or `qena_updated` enables it. -/
inductive TxMove (d d' : Device) (i : ℕ) : Prop
  | kept (hl : (d'.txqs i).q.len = (d.txqs i).q.len) (he : (d'.txqs i).q.enabled = (d.txqs i).q.enabled)
      (hp : (d.txqs i).q.enabled = false → (d'.txqs i).q.activeCnt = (d.txqs i).q.activeCnt ∧
        (d'.txqs i).q.activeFirstIdx = (d.txqs i).q.activeFirstIdx)
  | cleared (hl : (d'.txqs i).q.len = (d.txqs i).q.len) (he : (d'.txqs i).q.enabled = false)
      (hp : (d'.txqs i).q.activeCnt = 0 ∧ (d'.txqs i).q.activeFirstIdx = 0)
  | enabled (calls : List Call) (rest : List (Cmd Unit)) (hoff : (d.txqs i).q.enabled = false)
      (he : (d'.txqs i).q.enabled = true) (hc : d'.calls = .tx i :: calls) (hs : (d'.txqs i).stack = .triggerFetch :: rest)

theorem TxMove.same (h : d'.txqs i = d.txqs i) : TxMove d d' i :=
  .kept (by rw [h]) (by rw [h]) fun _ => by rw [h]; exact ⟨rfl, rfl⟩

theorem txMove_txQenaUpdated (ht : Tidy d) (j : ℕ) : TxMove d (d.txQenaUpdated j) i := by
  rcases ht.txQenaUpdated_cases j with ⟨-, hd⟩ | ⟨hoff, -, hd⟩
  · rw [hd]
    exact .same rfl
  · rw [hd]
    by_cases hj : i = j
    · subst hj
      have hq : ∀ c, (((d.setQtxEna i (d.atq.client.dev.qtxEna i ||| qenaStat)).setTx i c).push [.tx i]).txqs i = c :=
        fun c => Function.update_self ..
      refine .enabled d.calls ([.triggerProcess, .triggerWriteback] ++ (d.txqs i).stack) hoff ?_ rfl ?_
      · rw [hq]
        rfl
      · rw [hq]
        rfl
    · exact .same (Function.update_of_ne hj _ _)

theorem txMove_txTailUpdated (j : ℕ) : TxMove d (d.txTailUpdated j) i := by
  unfold Device.txTailUpdated
  split
  · by_cases hj : i = j
    · subst hj
      have hq : ∀ c, ((d.setTx i c).push [.tx i]).txqs i = c := fun c => Function.update_self ..
      exact .kept (by rw [hq]; rfl) (by rw [hq]; rfl) fun _ => by rw [hq]; exact ⟨rfl, rfl⟩
    · exact .same (Function.update_of_ne hj _ _)
  · exact .same rfl

theorem TxMove.ran (ht : Tidy d) (hr : Ran d d') : TxMove d d' i := by
  cases hr with
  | done => exact .same rfl
  | atq env cmd rest c hc hs he =>
    rcases exec_txqs (ht.atq.live (by rw [hs]; simp)) hs he with ⟨-, hn, -⟩ | ⟨j, ctx, -, -, hn, -⟩
    · rw [hn]
      exact .same rfl
    · rw [hn]
      -- the admin command itself leaves the transmit queues alone
      cases txMove_txQenaUpdated (i := i) (ht.execAtq hc hs he) j with
      | kept hl he hp => exact .kept hl he hp
      | cleared hl he hp => exact .cleared hl he hp
      | enabled calls rest hoff he hc hs => exact .enabled calls rest hoff he hc hs
  | rx => exact .same rfl
  | tx j env cmd rest c hc hs he =>
    by_cases hj : i = j
    · subst hj
      have hlive := (ht.txqs i).live (by rw [hs]; simp)
      have hp : program c.q = program (d.txqs i).q := exec_program (c := { d.txqs i with stack := rest }) hlive he
      have hq : (d.setTx i c).txqs i = c := Function.update_self ..
      refine .kept (by rw [hq]; exact congrArg (fun p => p.2.1) hp) (by rw [hq]; exact congrArg (fun p => p.2.2.1) hp) ?_
      intro hoff
      rw [hlive] at hoff
      cases hoff
    · exact .same (Function.update_of_ne hj _ _)
  | tailUpdated idx rest hs =>
    refine .same ?_
    rw [(modifiesOnly_rxTailUpdated { d with calls := rest } idx).tx i (by simp)]

theorem TxMove.notify {n : Notify} (ht : Tidy d) (hn : d.notify n = .ok d') : TxMove d d' i := by
  cases n with
  | tailUpdated j rx =>
    cases rx
    · exact Except.ok.inj hn ▸ txMove_txTailUpdated j
    · rw [← Except.ok.inj hn]
      refine .same ?_
      rw [(modifiesOnly_rxTailUpdated d j).tx i (by simp)]
  | qenaUpdated j rx =>
    cases rx
    · exact Except.ok.inj hn ▸ txMove_txQenaUpdated ht j
    · rcases rxQenaUpdated_cases hn with ⟨-, -, c, val, -, rfl⟩ | ⟨-, -, val, rfl⟩ | ⟨-, rfl⟩
      · exact .same rfl
      · exact .same rfl
      · exact .same rfl
  | atqRegUpdated =>
    rw [← Except.ok.inj hn]
    exact .same rfl
  | reset =>
    rw [← Except.ok.inj hn]
    exact .cleared rfl rfl ⟨rfl, rfl⟩
  | _ =>
    rw [notify_silent rfl] at hn
    rw [← Except.ok.inj hn]
    exact .same rfl

theorem TxMove.step {x : Input} (ht : Tidy d) (hs : Step d x d') : TxMove d d' i := by
  cases hs with
  | run env call rest hs hr => exact .ran ht (ran_of_run hs hr)
  | write env addr val hv hs hw =>
    obtain ⟨r, -, ⟨-, rfl⟩ | ⟨n, -, hn⟩⟩ := regWrite_cases hw
    · exact .kept rfl rfl fun _ => ⟨rfl, rfl⟩
    · -- the registers hold the head and the tail of the queue only
      cases TxMove.notify (i := i) (ht.setRegs r.1) hn with
      | kept hl he hp => exact .kept hl he hp
      | cleared hl he hp => exact .cleared hl he hp
      | enabled calls rest hoff he hc hs => exact .enabled calls rest hoff he hc hs
  | packet env hint data hs hp =>
    rcases packetReceived_cases hp with rfl | ⟨j, c, -, rfl⟩
    · exact .same rfl
    · exact .same rfl

theorem Standing.fit (h : Standing d) (hm : TxMove d d' i) (hd : ¬Doomed d') : Fit (d.txqs i).q (d'.txqs i).q := by
  cases hm with
  | kept hl he hp => exact .same hl he
  | cleared hl he hp =>
    refine ⟨.inr hl, fun hen => ?_⟩
    rw [he] at hen
    cases hen
  | enabled calls rest hoff he hc hs =>
    obtain ⟨hcnt, hidx⟩ := h.parked i hoff
    refine ⟨.inl hcnt, fun _ => .inr ?_⟩
    rw [hidx]
    exact Nat.pos_of_ne_zero fun hz => hd ⟨i, calls, rest, hc, he, hz, hs⟩

theorem Standing.park (h : Standing d) (hm : TxMove d d' i) (hoff : (d'.txqs i).q.enabled = false) :
    (d'.txqs i).q.activeCnt = 0 ∧ (d'.txqs i).q.activeFirstIdx = 0 := by
  cases hm with
  | kept hl he hp =>
    have hoff' : (d.txqs i).q.enabled = false := he ▸ hoff
    obtain ⟨hcnt, hidx⟩ := hp hoff'
    rw [hcnt, hidx]
    exact h.parked i hoff'
  | cleared hl he hp => exact hp
  | enabled calls rest _ he hc hs =>
    rw [he] at hoff
    cases hoff

theorem Standing.step {x : Input} (h : Standing d) (hd : device.Reachable d) (hs : Step d x d')
    (hatq : Fit d.atq.q d'.atq.q) (hrx : ∀ i, Fit (d.rxqs i).q (d'.rxqs i).q) : Standing d' ∨ Doomed d' := by
  by_cases hdo : Doomed d'
  · exact .inr hdo
  have ht := Tidy.reachable hd
  have hsh := Shape.reachable hd
  refine .inl ⟨⟨?_, fun i => ?_, fun i => ?_⟩, fun i => h.park (.step ht hs)⟩
  · exact h.sane.atq.touch ht.atq.live (touch_atq ht (.reachable hd) hs) hatq
  · exact (h.sane.rx i).touch (ht.rxqs i).live (touch_rx ht hsh hs i) (hrx i)
  · exact (h.sane.tx i).touch (ht.txqs i).live (touch_tx ht hsh hs i) (h.fit (.step ht hs) hdo)

theorem Standing.reachable (h : settled.Reachable d) : Standing d ∨ Doomed d := by
  induction h with
  | start h =>
    exact .inl ⟨⟨sane_of_unused h.atq, fun i => sane_of_unused (h.rxqs i), fun i => sane_of_unused (h.txqs i)⟩,
      fun i _ => ⟨(h.txqs i).cnt, (h.txqs i).first_idx⟩⟩
  | step hd h ih =>
    obtain ⟨⟨x, hx⟩, hatq, hrx⟩ := h
    rcases ih with hst | hdo
    · exact hst.step hd.of_restrict hx hatq hrx
    · exact absurd hx hdo.no_step

theorem settled_nested (h : settled.Reachable d) (hc : NestedCall env d d') : settled.Reachable d' := by
  have hkept := Kept.ran (Tidy.reachable h.of_restrict) hc.ran
  refine .step h ⟨⟨_, hc.step⟩, .same (congrArg (fun p => p.2.1) hkept.atq) (congrArg (fun p => p.2.2.1) hkept.atq), ?_⟩
  exact fun i => .same (congrArg (fun p => p.2.1) (hkept.rx i)) (congrArg (fun p => p.2.2.1) (hkept.rx i))

/-- A receive queue that was enabled still calls `tail_updated`, which triggers a queue. -/
def callWeight : Call → ℕ
  | .tailUpdated _ => 2
  | _ => 1

def callsWeight (calls : List Call) : ℕ := (calls.map callWeight).sum

/-- What the queue that runs has left to do. -/
def headMeasure (d : Device) : (ℕ ×ₗ ℕ) ×ₗ ℕ :=
  match d.calls.head? with
  | some (.rx i) => toLex (measure (fun k => k.numDescs - k.i) (d.rxqs i), 0)
  | some (.tx i) => txMeasure (d.txqs i)
  | _ => toLex (toLex (0, 0), 0)

/-- A command of the admin queue may enable a transmit queue, which then runs first. -/
def doorbellMeasure (d : Device) : (ℕ ×ₗ ℕ) ×ₗ ℕ ×ₗ ((ℕ ×ₗ ℕ) ×ₗ ℕ) :=
  toLex (measure (fun _ => 0) d.atq, toLex (callsWeight d.calls, headMeasure d))

theorem measure_lt_of_atq (h : measure (fun _ => 0) d'.atq < measure (fun _ => 0) d.atq) :
    doorbellMeasure d' < doorbellMeasure d := Prod.Lex.toLex_lt_toLex.mpr (.inl h)

theorem measure_lt_of_calls (ha : d'.atq = d.atq) (h : callsWeight d'.calls < callsWeight d.calls) :
    doorbellMeasure d' < doorbellMeasure d :=
  Prod.Lex.toLex_lt_toLex.mpr (.inr ⟨by rw [ha], Prod.Lex.toLex_lt_toLex.mpr (.inl h)⟩)

theorem measure_lt_of_head (ha : d'.atq = d.atq) (hc : d'.calls = d.calls) (h : headMeasure d' < headMeasure d) :
    doorbellMeasure d' < doorbellMeasure d :=
  Prod.Lex.toLex_lt_toLex.mpr (.inr ⟨by rw [ha], Prod.Lex.toLex_lt_toLex.mpr (.inr ⟨by rw [hc], h⟩)⟩)

theorem callsWeight_cons (call : Call) (rest : List Call) :
    callsWeight (call :: rest) = callWeight call + callsWeight rest := by
  simp [callsWeight]

theorem callWeight_pos (call : Call) : 0 < callWeight call := by
  cases call <;> simp [callWeight]

theorem exec_atq_measure {env : Env AdminEnv} {cmd : Cmd Unit} {rest : List (Cmd Unit)} {c : Config AdminClient Unit}
    (hi : Inv AdminQueue.subclass d.atq) (hs : d.atq.stack = cmd :: rest)
    (he : exec AdminQueue.subclass env { d.atq with stack := rest } cmd = .ok c) :
    measure (fun _ => 0) c < measure (fun _ => 0) d.atq :=
  Nested.measure_lt adminQueue_shrinks hi ⟨env, cmd, rest, hs, he⟩

theorem run_tx {calls : List Call} (hc : d.calls = .tx i :: calls)
    (h : Device.run env { d with calls := calls } (.tx i) = .ok d') :
    ((d.txqs i).stack = [] ∧ d' = { d with calls := calls }) ∨
      ∃ cmd rest c, (d.txqs i).stack = cmd :: rest ∧
        exec LanTx.subclass (env.env env.tx) { d.txqs i with stack := rest } cmd = .ok c ∧ d' = d.setTx i c := by
  unfold Device.run at h
  dsimp only at h
  split at h
  · rename_i hs
    cases h
    exact .inl ⟨hs, rfl⟩
  · rename_i cmd rest hs
    obtain ⟨c, he, h⟩ := bind_ok h
    cases h
    refine .inr ⟨cmd, rest, c, hs, he, ?_⟩
    have hback : ({ d with calls := .tx i :: calls } : Device) = d := by rw [← hc]
    conv_rhs => rw [← hback]
    rfl

theorem headMeasure_tx {calls : List Call} (hc : d.calls = .tx i :: calls) : headMeasure d = txMeasure (d.txqs i) := by
  rw [headMeasure, hc]
  rfl

theorem headMeasure_rx {calls : List Call} (hc : d.calls = .rx i :: calls) :
    headMeasure d = toLex (measure (fun k => k.numDescs - k.i) (d.rxqs i), 0) := by
  rw [headMeasure, hc]
  rfl

/-- Every nested call that gets on makes the measure smaller. -/
theorem NestedCall.measure_lt (h : NestedCall env d d') (hst : Standing d) (ht : Tidy d)
    (hg : GetsOn env.tx.accept d) : doorbellMeasure d' < doorbellMeasure d := by
  obtain ⟨call, calls, hc, hr⟩ := h
  by_cases htx : ∃ i, call = .tx i
  · obtain ⟨i, rfl⟩ := htx
    rcases run_tx hc hr with ⟨-, rfl⟩ | ⟨cmd, rest, c, hs, he, rfl⟩
    · refine measure_lt_of_calls rfl ?_
      rw [hc, callsWeight_cons]
      exact Nat.lt_add_of_pos_left (callWeight_pos _)
    · have hlive := (ht.txqs i).live (by rw [hs]; simp)
      have hlt := exec_txMeasure ((hst.sane.tx i).inv hlive) hs he fun sent hk hp => hg i calls rest sent hc (hk ▸ hs) hp
      refine measure_lt_of_head rfl rfl ?_
      rw [headMeasure_tx hc, headMeasure_tx (d := d.setTx i c) hc]
      change txMeasure (Function.update d.txqs i c i) < _
      rw [Function.update_self]
      exact hlt
  have hhead : d.calls.head? = some call := by rw [hc]; rfl
  cases ran_of_run hc hr with
  | done call' rest hs hq hr ht hu =>
    refine measure_lt_of_calls rfl ?_
    rw [hs, callsWeight_cons]
    exact Nat.lt_add_of_pos_left (callWeight_pos _)
  | atq env' cmd rest c hh hs he =>
    have hlive := ht.atq.live (by rw [hs]; simp)
    have hlt := exec_atq_measure (hst.sane.atq.inv hlive) hs he
    refine measure_lt_of_atq ?_
    rcases exec_txqs hlive hs he with ⟨-, hn, -⟩ | ⟨j, ctx, -, -, hn, -⟩
    · rw [hn]
      exact hlt
    · rw [hn]
      have ha := (alike_txQenaUpdated (ht.execAtq hh hs he) j).1
      have hsame : measure (fun _ => 0) ((d.setAtq c).txQenaUpdated j).atq = measure (fun _ => 0) c := by
        rw [DescriptorQueue.measure, DescriptorQueue.measure, ha.q, ha.stack]
        rfl
      exact lt_of_eq_of_lt hsame hlt
  | rx i env' cmd rest c hh hs he =>
    have hlive := (ht.rxqs i).live (by rw [hs]; simp)
    have hlt : measure (fun k => k.numDescs - k.i) c < measure (fun k => k.numDescs - k.i) (d.rxqs i) :=
      Nested.measure_lt lanRx_shrinks ((hst.sane.rx i).inv hlive) ⟨env', cmd, rest, hs, he⟩
    obtain ⟨below, hb⟩ := calls_of_head hh
    refine measure_lt_of_head rfl rfl ?_
    rw [headMeasure_rx hb, headMeasure_rx (d := d.setRx i c) hb]
    change toLex (measure _ (Function.update d.rxqs i c i), 0) < _
    rw [Function.update_self]
    exact Prod.Lex.toLex_lt_toLex.mpr (.inl hlt)
  | tx i env' cmd rest c hh hs he =>
    rw [hhead] at hh
    exact absurd ⟨i, Option.some.inj hh⟩ htx
  | tailUpdated idx rest hs =>
    have hatq : ({ d with calls := rest }.rxTailUpdated idx).atq = d.atq :=
      (modifiesOnly_rxTailUpdated { d with calls := rest } idx).atq (by simp)
    refine measure_lt_of_calls hatq ?_
    rw [hs, callsWeight_cons]
    unfold Device.rxTailUpdated
    split
    · change callsWeight (.rx idx :: rest) < _
      rw [callsWeight_cons]
      exact Nat.add_lt_add_right Nat.one_lt_two _
    · exact Nat.lt_add_of_pos_left (callWeight_pos _)

/-- One nested call that gets on, whatever the guest's memory holds at that moment. -/
def Good (d d' : Device) : Prop := ∃ env, NestedCall env d d' ∧ GetsOn env.tx.accept d

theorem Standing.terminates (h : settled.Reachable d) : Acc (fun b a => Good a b) d := by
  induction hm : doorbellMeasure d using WellFoundedLT.induction generalizing d with
  | _ m ih =>
    subst hm
    refine ⟨d, fun e he => ?_⟩
    obtain ⟨env, hc, hg⟩ := he
    rcases Standing.reachable h with hst | hdo
    · exact ih _ (hc.measure_lt hst (Tidy.reachable h.of_restrict) hg) (settled_nested h hc) rfl
    · exact absurd hc hdo.faults

theorem runAll_succ {calls : List Call} {call : Call} {n : ℕ} (hc : d.calls = call :: calls)
    (h : Device.run env { d with calls := calls } call = .ok d') : runAll env (n + 1) d = runAll env n d' := by
  rw [runAll]
  split
  · rename_i hn
    rw [hn] at hc
    cases hc
  · rename_i call' calls' hc'
    rw [hc] at hc'
    cases hc'
    rw [h]
    rfl

theorem runAll_rest (hc : d.calls = []) (n : ℕ) : runAll env n d = .ok d := by
  cases n with
  | zero => rfl
  | succ n =>
    rw [runAll]
    split
    · rfl
    · rename_i hc'
      rw [hc] at hc'
      cases hc'

/-- If every call on the way gets on, a doorbell comes to rest or meets a fault. -/
theorem runAll_ends (hacc : Acc (fun b a => Good a b) d)
    (hg : ∀ n t, runAll env n d = .ok t → GetsOn env.tx.accept t) :
    ∃ n, (∃ t, runAll env n d = .ok t ∧ t.calls = []) ∨ ∃ f, runAll env n d = .error f := by
  induction hacc with
  | intro d _ ih =>
    cases hc : d.calls with
    | nil => exact ⟨0, .inl ⟨d, rfl, hc⟩⟩
    | cons call calls =>
      cases hr : Device.run env { d with calls := calls } call with
      | error f =>
        refine ⟨1, .inr ⟨f, ?_⟩⟩
        rw [runAll, hc]
        dsimp only
        rw [hr]
        rfl
      | ok e =>
        have hsucc : ∀ n, runAll env (n + 1) d = runAll env n e := fun n => runAll_succ hc hr
        obtain ⟨n, hn⟩ := ih e ⟨env, ⟨call, calls, hc, hr⟩, hg 0 d rfl⟩ fun n t ht => hg (n + 1) t (by rw [hsucc, ht])
        exact ⟨n + 1, by rw [hsucc]; exact hn⟩

/-- `trigger_tx` runs on a unit that is complete and of which a call of `trigger_tx_packet` sends nothing. -/
def Stalled (accept : ℕ → Bool) (d : Device) : Prop :=
  ∃ i calls rest, d.calls = .tx i :: calls ∧ (d.txqs i).stack = .resume () :: rest ∧ Consistent (d.txqs i).client.tso ∧
    (∀ t, triggerTxPacket accept t (ready (d.txqs i)) ≠ .ok none) ∧
    ¬Moves accept (d.txqs i).client.tso (ready (d.txqs i))

theorem Stalled.nested (h : Stalled env.tx.accept d) (hc : NestedCall env d d') : Stalled env.tx.accept d' := by
  obtain ⟨i, calls, rest, hcalls, hs, ht, hcomplete, hm⟩ := h
  obtain ⟨call, calls', hcalls', hr⟩ := hc
  rw [hcalls] at hcalls'
  cases hcalls'
  rcases run_tx hcalls hr with ⟨hnil, -⟩ | ⟨cmd, rest', c, hs', he, rfl⟩
  · rw [hs] at hnil
    cases hnil
  rw [hs] at hs'
  cases hs'
  rcases turn_cases he with ⟨hnone, -⟩ | ⟨sent, hturn⟩
  · exact absurd hnone (hcomplete _)
  obtain ⟨hdrop, hm'⟩ := stall_persists ht hturn.packet hm
  have hzero : sent.popped = 0 := by
    obtain ⟨s, tail, -, -, -, hready, -⟩ := triggerTxPacket_sent hturn.packet
    have hlen := congrArg List.length hdrop
    rw [List.length_drop, hready, List.length_cons] at hlen
    omega
  have hready : ready c = ready (d.txqs i) := by
    rw [ready, ready, hturn.segments, hzero, List.drop_zero, hturn.still hzero]
  refine ⟨i, calls, rest, hcalls, ?_⟩
  change (Function.update d.txqs i c i).stack = _ ∧ Consistent (Function.update d.txqs i c i).client.tso ∧
    (∀ t, triggerTxPacket _ t (ready (Function.update d.txqs i c i)) ≠ _) ∧
    ¬Moves _ (Function.update d.txqs i c i).client.tso (ready (Function.update d.txqs i c i))
  rw [Function.update_self, hready, hturn.tso]
  exact ⟨hturn.stack, sent_consistent ht hturn.packet, hcomplete, hm'⟩

theorem Stalled.runAll {n : ℕ} (h : Stalled env.tx.accept d) (hr : runAll env n d = .ok t) : t.calls ≠ [] := by
  induction n generalizing d with
  | zero =>
    cases hr
    obtain ⟨i, calls, -, hc, -⟩ := h
    rw [hc]
    simp
  | succ n ih =>
    cases hc : d.calls with
    | nil =>
      obtain ⟨i, calls, -, hc', -⟩ := h
      rw [hc] at hc'
      cases hc'
    | cons call calls =>
      cases hx : Device.run env { d with calls := calls } call with
      | error f =>
        rw [DoorbellRouting.runAll, hc] at hr
        dsimp only at hr
        rw [hx] at hr
        cases hr
      | ok e =>
        rw [runAll_succ hc hx] at hr
        exact ih (h.nested ⟨call, calls, hc, hx⟩) hr

theorem runAll_add {n m : ℕ} (h : runAll env n d = .ok t) : runAll env (n + m) d = runAll env m t := by
  induction n generalizing d with
  | zero =>
    cases h
    rw [Nat.zero_add]
  | succ n ih =>
    cases hc : d.calls with
    | nil =>
      rw [runAll_rest hc] at h
      cases h
      rw [runAll_rest hc, runAll_rest hc]
    | cons call calls =>
      cases hx : Device.run env { d with calls := calls } call with
      | error f =>
        rw [runAll, hc] at h
        dsimp only at h
        rw [hx] at h
        cases h
      | ok e =>
        rw [runAll_succ hc hx] at h
        rw [Nat.add_right_comm, runAll_succ hc hx]
        exact ih h

/-- What is kept of a unit between two calls of `trigger_tx_packet`. -/
def AllConsistent (d : Device) : Prop := ∀ i, Consistent (d.txqs i).client.tso

theorem exec_consistent {env : Env TxEnv} {c c' : Config TxClient Unit} {cmd : Cmd Unit} {rest : List (Cmd Unit)}
    (hen : c.q.enabled = true) (h : exec LanTx.subclass env { c with stack := rest } cmd = .ok c')
    (ht : Consistent c.client.tso) : Consistent c'.client.tso := by
  rcases exec_subclass (c := { c with stack := rest }) hen h with hq | ⟨a, b, p, e, -, -, -, -, hp, ha⟩ | ⟨k, e, rfl, -, -⟩
  · rw [hq.client]
    exact ht
  · cases hp
    rw [ha.client]
    exact ht
  · rcases turn_cases h with ⟨-, rfl⟩ | ⟨sent, hturn⟩
    · exact ht
    · rw [hturn.tso]
      exact sent_consistent ht hturn.packet

theorem AllConsistent.ran (h : AllConsistent d) (ht : Tidy d) (hr : Ran d d') : AllConsistent d' := by
  cases hr with
  | done => exact h
  | atq env cmd rest c hc hs he =>
    rcases exec_txqs (ht.atq.live (by rw [hs]; simp)) hs he with ⟨-, hn, -⟩ | ⟨j, ctx, -, -, hn, -⟩
    · rw [hn]
      exact h
    · rw [hn]
      change AllConsistent ((d.setAtq c).txQenaUpdated j)
      rcases (ht.execAtq hc hs he).txQenaUpdated_cases j with ⟨-, hd⟩ | ⟨-, -, hd⟩
      · rw [hd]
        exact h
      · rw [hd]
        exact (Function.forall_update_iff _ fun j (x : Config TxClient Unit) => Consistent x.client.tso).mpr
          ⟨h j, fun j _ => h j⟩
  | rx => exact h
  | tx i env cmd rest c hc hs he =>
    exact (Function.forall_update_iff _ fun j (x : Config TxClient Unit) => Consistent x.client.tso).mpr
      ⟨exec_consistent ((ht.txqs i).live (by rw [hs]; simp)) he (h i), fun j _ => h j⟩
  | tailUpdated idx rest hs =>
    intro i
    rw [(modifiesOnly_rxTailUpdated { d with calls := rest } idx).tx i (by simp)]
    exact h i

theorem settled_runAll {n : ℕ} (h : settled.Reachable d) (hr : runAll env n d = .ok t) : settled.Reachable t := by
  induction n generalizing d with
  | zero =>
    cases hr
    exact h
  | succ n ih =>
    rw [runAll] at hr
    split at hr
    · cases hr
      exact h
    · rename_i call calls hc
      obtain ⟨x, hx, hr⟩ := bind_ok hr
      exact ih (settled_nested h ⟨call, calls, hc, hx⟩) hr

theorem AllConsistent.runAll {n : ℕ} (h : AllConsistent d) (hd : settled.Reachable d) (hr : runAll env n d = .ok t) :
    AllConsistent t := by
  induction n generalizing d with
  | zero =>
    cases hr
    exact h
  | succ n ih =>
    rw [DoorbellRouting.runAll] at hr
    split at hr
    · cases hr
      exact h
    · rename_i call calls hc
      obtain ⟨x, hx, hr⟩ := bind_ok hr
      have hn : NestedCall env d x := ⟨call, calls, hc, hx⟩
      exact ih (h.ran (Tidy.reachable hd.of_restrict) hn.ran) (settled_nested hd hn) hr

/-- With the same answers throughout, a doorbell that meets no fault returns exactly if every call on the way gets on. -/
theorem returns_iff (h : settled.Reachable d) (hcons : AllConsistent d) (hf : ∀ n f, runAll env n d ≠ .error f) :
    (∃ n t, runAll env n d = .ok t ∧ t.calls = []) ↔ ∀ n t, runAll env n d = .ok t → GetsOn env.tx.accept t := by
  constructor
  · rintro ⟨n, t, hn, hrest⟩ m u hm
    intro i calls rest sent hc hs hp
    by_contra hmoves
    have hstall : Stalled env.tx.accept u :=
      ⟨i, calls, rest, hc, hs, hcons.runAll h hm i, fun _ => packet_complete hp, hmoves⟩
    have hend : runAll env (m + n) d = .ok t := by rw [Nat.add_comm, runAll_add hn, runAll_rest hrest]
    rw [runAll_add hm] at hend
    exact hstall.runAll hend hrest
  · intro hg
    obtain ⟨n, ⟨t, ht, hrest⟩ | ⟨f, hn⟩⟩ := runAll_ends (Standing.terminates h) hg
    · exact ⟨n, t, ht, hrest⟩
    · exact absurd hn (hf n f)

theorem advance_atq (hst : Standing d) (ht : Tidy d) (hr : Ran d d') : ∃ k, Advance d.atq d'.atq k := by
  cases hr with
  | done => exact ⟨0, .same rfl rfl⟩
  | atq env cmd rest c hc hs he =>
    have hlive := ht.atq.live (by rw [hs]; simp)
    obtain ⟨k, hk⟩ := exec_advance (hst.sane.atq.inv hlive) hs he
    rcases exec_txqs hlive hs he with ⟨-, hn, -⟩ | ⟨j, ctx, -, -, hn, -⟩
    · rw [hn]
      exact ⟨k, hk⟩
    · rw [hn]
      have ha := (alike_txQenaUpdated (ht.execAtq hc hs he) j).1
      have hsame : Advance c ((d.setAtq c).txQenaUpdated j).atq 0 := .same ha.q ha.log
      exact ⟨k + 0, hk.trans hsame⟩
  | rx => exact ⟨0, .same rfl rfl⟩
  | tx => exact ⟨0, .same rfl rfl⟩
  | tailUpdated idx rest hs =>
    refine ⟨0, ?_⟩
    rw [(modifiesOnly_rxTailUpdated { d with calls := rest } idx).atq (by simp)]
    exact .same rfl rfl

theorem advance_rxTailUpdated (d : Device) (j : ℕ) : Advance (d.rxqs i) ((d.rxTailUpdated j).rxqs i) 0 := by
  unfold Device.rxTailUpdated
  split
  · by_cases hj : i = j
    · subst hj
      change Advance (d.rxqs i) (Function.update d.rxqs i (regUpdated (d.rxqs i)) i) 0
      rw [Function.update_self]
      exact .same rfl rfl
    · change Advance (d.rxqs i) (Function.update d.rxqs j (regUpdated (d.rxqs j)) i) 0
      rw [Function.update_of_ne hj]
      exact .same rfl rfl
  · exact .same rfl rfl

theorem advance_rx (hst : Standing d) (ht : Tidy d) (hr : Ran d d') : ∃ k, Advance (d.rxqs i) (d'.rxqs i) k := by
  cases hr with
  | done => exact ⟨0, .same rfl rfl⟩
  | atq env cmd rest c hc hs he =>
    refine ⟨0, ?_⟩
    rcases exec_txqs (ht.atq.live (by rw [hs]; simp)) hs he with ⟨-, hn, -⟩ | ⟨j, ctx, -, -, hn, -⟩
    · rw [hn]
      exact .same rfl rfl
    · rw [hn]
      have hsame := congrFun (alike_txQenaUpdated (ht.execAtq hc hs he) j).2 i
      exact .same (congrArg Config.q hsame) (congrArg Config.log hsame)
  | rx j env cmd rest c hc hs he =>
    by_cases hj : i = j
    · subst hj
      change ∃ k, Advance (d.rxqs i) (Function.update d.rxqs i c i) k
      rw [Function.update_self]
      exact exec_advance ((hst.sane.rx i).inv ((ht.rxqs i).live (by rw [hs]; simp))) hs he
    · change ∃ k, Advance (d.rxqs i) (Function.update d.rxqs j c i) k
      rw [Function.update_of_ne hj]
      exact ⟨0, .same rfl rfl⟩
  | tx => exact ⟨0, .same rfl rfl⟩
  | tailUpdated idx rest hs => exact ⟨0, advance_rxTailUpdated { d with calls := rest } idx⟩

/-- Nested calls, whatever the environment answers each of them. -/
def NestedCalls (d t : Device) : Prop := Relation.ReflTransGen (fun a b => ∃ env, NestedCall env a b) d t

theorem advance_nested (h : settled.Reachable d) (hr : NestedCalls d t) :
    settled.Reachable t ∧ (∃ k, Advance d.atq t.atq k) ∧ ∀ i, ∃ k, Advance (d.rxqs i) (t.rxqs i) k := by
  induction hr with
  | refl => exact ⟨h, ⟨0, .same rfl rfl⟩, fun i => ⟨0, .same rfl rfl⟩⟩
  | tail _ hn ih =>
    obtain ⟨hu, ⟨k, hk⟩, hrx⟩ := ih
    obtain ⟨env, hn⟩ := hn
    rcases Standing.reachable hu with hst | hdo
    · have ht := Tidy.reachable hu.of_restrict
      obtain ⟨m, hm⟩ := advance_atq hst ht hn.ran
      refine ⟨settled_nested hu hn, ⟨k + m, hk.trans hm⟩, fun i => ?_⟩
      obtain ⟨k, hk⟩ := hrx i
      obtain ⟨m, hm⟩ := advance_rx (i := i) hst ht hn.ran
      exact ⟨k + m, hk.trans hm⟩
    · exact absurd hn hdo.faults

theorem fetches_once (h : settled.Reachable d) (hr : NestedCalls d t) :
    FetchesOnce d.atq t.atq ∧ ∀ i, FetchesOnce (d.rxqs i) (t.rxqs i) := by
  rcases Standing.reachable h with hst | hdo
  · obtain ⟨-, ⟨k, hk⟩, hrx⟩ := advance_nested h hr
    refine ⟨hk.once fun he => ?_, fun i => ?_⟩
    · obtain ⟨hidx, hlen⟩ := hst.sane.atq.running he
      exact ⟨Nat.lt_of_le_of_lt (Nat.zero_le _) hidx, hlen⟩
    · obtain ⟨k, hk⟩ := hrx i
      refine hk.once fun he => ?_
      obtain ⟨hidx, hlen⟩ := (hst.sane.rx i).running he
      exact ⟨Nat.lt_of_le_of_lt (Nat.zero_le _) hidx, hlen⟩
  · rcases Relation.ReflTransGen.cases_head hr with rfl | ⟨e, ⟨env, he⟩, -⟩
    · exact ⟨⟨[], (List.append_nil _).symm, List.nodup_nil⟩, fun i => ⟨[], (List.append_nil _).symm, List.nodup_nil⟩⟩
    · exact absurd he hdo.faults

/-- From every state on the way, a doorbell comes to an end and fetches no slot of a ring twice, as long as no turn
of `trigger_tx` finds a complete unit of which it sends nothing. -/
theorem doorbell_returns (d : Device) (h : settled.Reachable d) :
    (∀ env d', NestedCall env d d' → GetsOn env.tx.accept d → doorbellMeasure d' < doorbellMeasure d) ∧
    Acc (fun b a => Good a b) d ∧
    (∀ env, (∀ n t, runAll env n d = .ok t → GetsOn env.tx.accept t) →
      ∃ n, (∃ t, runAll env n d = .ok t ∧ t.calls = []) ∨ ∃ f, runAll env n d = .error f) ∧
    (∀ env, AllConsistent d → (∀ n f, runAll env n d ≠ .error f) →
      ((∃ n t, runAll env n d = .ok t ∧ t.calls = []) ↔ ∀ n t, runAll env n d = .ok t → GetsOn env.tx.accept t)) ∧
    ∀ t, NestedCalls d t → FetchesOnce d.atq t.atq ∧ ∀ i, FetchesOnce (d.rxqs i) (t.rxqs i) := by
  refine ⟨fun env d' hn hg => ?_, Standing.terminates h, fun env => runAll_ends (Standing.terminates h), fun env => returns_iff h,
    fun t => fetches_once h⟩
  rcases Standing.reachable h with hst | hdo
  · exact hn.measure_lt hst (Tidy.reachable h.of_restrict) hg
  · exact absurd hn hdo.faults

/-- Register writes, each on a device at rest whose admin queue has no command in flight. -/
def setUp (env : DeviceEnv) (n : ℕ) : List (Doorbell × ℕ) → Device → Except Fault Device
  | [], d => .ok d
  | (b, val) :: ws, d => do
    let d' ← d.regWrite env b.addr val
    let t ← runAll env n d'
    if t.calls = [] ∧ d.atq.q.activeCnt = 0 ∧ (d'.atq.q.enabled = true → d.atq.q.activeFirstIdx < d'.atq.q.len) then
      setUp env n ws t
    else .error .abort

theorem fit_rx {b : Doorbell} {val : ℕ} (hb : b.Valid)
    (hn : b.note = .atqRegUpdated ∨ ∃ j, b.note = .tailUpdated j false) (hw : d.regWrite env b.addr val = .ok d') :
    Fit (d.rxqs i).q (d'.rxqs i).q := by
  have hd := doorbell_notify hb hw
  rcases hn with hn | ⟨j, hn⟩
  · rw [hn] at hd
    rw [← Except.ok.inj hd]
    exact .same rfl rfl
  · rw [hn] at hd
    rw [← Except.ok.inj hd, (modifiesOnly_txTailUpdated _ j).rx i (by simp)]
    exact .same rfl rfl

theorem setUp_settled {n : ℕ} {ws : List (Doorbell × ℕ)} (hws : ∀ w ∈ ws, w.1.Valid ∧ w.2 < 0x100000000 ∧
      (w.1.note = .atqRegUpdated ∨ ∃ j, w.1.note = .tailUpdated j false))
    (h : settled.Reachable d) (hs : d.calls = []) (hr : setUp env n ws d = .ok t) : settled.Reachable t ∧ t.calls = [] := by
  induction ws generalizing d with
  | nil =>
    cases hr
    exact ⟨h, hs⟩
  | cons w ws ih =>
    obtain ⟨x, hx, hr⟩ := bind_ok hr
    obtain ⟨y, hy, hr⟩ := bind_ok hr
    split at hr
    · rename_i hy'
      obtain ⟨hrest, hcnt, hidx⟩ := hy'
      obtain ⟨hb, hv, hn⟩ := hws w List.mem_cons_self
      have hreach : settled.Reachable x := by
        refine .step h ⟨⟨_, .write env w.1.addr w.2 hv hs hx⟩, ⟨.inl hcnt, fun he => .inr (hidx he)⟩, fun i => fit_rx hb hn hx⟩
      exact ih (fun w hw => hws w (List.mem_cons_of_mem _ hw)) (settled_runAll hreach hy) hrest hr
    · cases hr

theorem runAll_nested {n : ℕ} (h : runAll env n d = .ok t) : NestedCalls d t := by
  induction n generalizing d with
  | zero =>
    cases h
    exact .refl
  | succ n ih =>
    rw [runAll] at h
    split at h
    · cases h
      exact .refl
    · rename_i call calls hc
      obtain ⟨x, hx, h⟩ := bind_ok h
      exact .head ⟨env, call, calls, hc, hx⟩ (ih h)

/-- The guest posts an `add_txqs` command, and in the ring of that transmit queue one descriptor with this second word. -/
def addTxqsEnv (word : ℕ) : DeviceEnv :=
  { guestEnv with mem := fun a => if 8 ≤ a ∧ a < 16 then (leBytes 8 word).getD (a - 8) 0 else addTxqsMem a }

def addTxqsDoorbell (word n : ℕ) : Except Fault (Device × Device × Device) := do
  let env := addTxqsEnv word
  let d ← setUp env 300 [(.commDbell 0, 1), (.atqbal, 0x1000), (.atqlen, 0x80000004)] zeroed
  let d' ← d.regWrite env Doorbell.atqt.addr 1
  let t ← runAll env n d'
  .ok (d, d', t)

theorem addTxqsDoorbell_steps {word n : ℕ} {r : Device × Device × Device} (h : addTxqsDoorbell word n = .ok r)
    (hfit : r.1.atq.q.activeCnt = 0 ∧ r.1.atq.q.activeFirstIdx < r.2.1.atq.q.len) :
    settled.Reachable r.1 ∧ r.1.calls = [] ∧ r.1.regWrite (addTxqsEnv word) Doorbell.atqt.addr 1 = .ok r.2.1 ∧
      settled.Reachable r.2.1 ∧ runAll (addTxqsEnv word) n r.2.1 = .ok r.2.2 := by
  obtain ⟨d, hd, h⟩ := bind_ok h
  obtain ⟨d', hd', h⟩ := bind_ok h
  obtain ⟨t, ht, h⟩ := bind_ok h
  cases h
  obtain ⟨hcnt, hidx⟩ := hfit
  obtain ⟨hreach, hrest⟩ := setUp_settled (by simp [Doorbell.Valid, Doorbell.note]) (.start zeroed_fresh) rfl hd
  refine ⟨hreach, hrest, hd', .step hreach ⟨⟨_, .write _ _ 1 (by decide) hrest hd'⟩, ⟨.inl hcnt, fun _ => .inr hidx⟩, ?_⟩, ht⟩
  exact fun i => fit_rx (b := .atqt) trivial (.inl rfl) hd'

theorem triggerTxPacket_empty (accept : ℕ → Bool) (addr : ℕ) (data pktbuf : List UInt8) :
    triggerTxPacket accept ⟨0, 0, pktbuf⟩ [⟨addr, 0x30, data⟩] = .ok (some ⟨⟨0, 0, pktbuf⟩, 0, [.ethSend []]⟩) := by
  have hscan : eopScan [⟨addr, 0x30, data⟩] (.start 0) = .ok ⟨1, true, 0, 0, 0, 0, 0⟩ := by
    simp [eopScan, EopScan.start, EopScan.next, dtype, dtypeData, cmdEop, cmdL4t, LanTx.maclen, iplen, l4len, txBufSz]
  have hsend : sendUnit accept ⟨0, 0, pktbuf⟩ [⟨addr, 0x30, data⟩] ⟨0, false, 0⟩ ⟨1, true, 0, 0, 0, 0, 0⟩ =
      .ok ⟨⟨0, 0, pktbuf⟩, 0, [.ethSend []]⟩ := by
    rw [sendUnit, if_neg (by simp)]
    rfl
  have hlead : lead ⟨addr, 0x30, data⟩ = ⟨0, false, 0⟩ := by simp [lead, dtype, dtypeCtx]
  unfold triggerTxPacket
  dsimp only
  rw [hlead]
  dsimp only
  rw [List.drop_zero, hscan]
  simp only [bind, Except.bind, Bool.not_true, Bool.false_eq_true, if_false, hsend]

/-- `trigger_tx` runs on the last descriptor of a packet, which has no data. -/
def Looping (d : Device) : Prop :=
  ∃ calls rest s pktbuf, d.calls = .tx 0 :: calls ∧ (d.txqs 0).stack = .resume () :: rest ∧ ready (d.txqs 0) = [s] ∧
    s.d1 = 0x30 ∧ (d.txqs 0).client.tso = ⟨0, 0, pktbuf⟩

theorem Looping.nested (h : Looping d) (env : DeviceEnv) : ∃ d', NestedCall env d d' ∧ Looping d' := by
  obtain ⟨calls, rest, ⟨addr, d1, data⟩, pktbuf, hc, hs, hready, hd1, htso⟩ := h
  dsimp only at hd1
  subst hd1
  have hp : triggerTxPacket env.tx.accept (d.txqs 0).client.tso (ready (d.txqs 0)) =
      .ok (some ⟨⟨0, 0, pktbuf⟩, 0, [.ethSend []]⟩) := by
    rw [hready, htso, triggerTxPacket_empty]
  let c : Config TxClient Unit := { d.txqs 0 with
    client := { (d.txqs 0).client with tso := ⟨0, 0, pktbuf⟩ }
    stack := .resume () :: rest
    log := (d.txqs 0).log ++ [.call (.ethSend [])] }
  have he : exec LanTx.subclass (env.env env.tx) { d.txqs 0 with stack := rest } (.resume ()) = .ok c := by
    change (triggerTx env.tx (d.txqs 0).client (d.txqs 0).q.ctxs >>= fun e => applyEffect _ _ e) = _
    have ht : triggerTx env.tx (d.txqs 0).client (d.txqs 0).q.ctxs = .ok {
        client := { (d.txqs 0).client with tso := ⟨0, 0, pktbuf⟩ }, next := some (), calls := [.ethSend []] } := by
      unfold triggerTx
      change (triggerTxPacket env.tx.accept (d.txqs 0).client.tso (ready (d.txqs 0)) >>= _) = _
      rw [hp]
      rfl
    rw [ht]
    rfl
  refine ⟨({ d with calls := calls }.setTx 0 c).push [.tx 0], ⟨.tx 0, calls, hc, ?_⟩, calls, rest, ⟨addr, 0x30, data⟩, pktbuf,
    rfl, ?_⟩
  · unfold Device.run
    dsimp only
    rw [hs]
    dsimp only
    rw [he]
    rfl
  · change (Function.update d.txqs 0 c 0).stack = _ ∧ ready (Function.update d.txqs 0 c 0) = _ ∧ _ ∧
      (Function.update d.txqs 0 c 0).client.tso = _
    rw [Function.update_self]
    exact ⟨rfl, hready, rfl, rfl⟩

theorem Looping.runAll (h : Looping d) (env : DeviceEnv) (n : ℕ) : ∃ t, runAll env n d = .ok t ∧ Looping t := by
  induction n generalizing d with
  | zero => exact ⟨d, rfl, h⟩
  | succ n ih =>
    obtain ⟨d', ⟨call, calls, hc, hr⟩, hd'⟩ := h.nested env
    obtain ⟨t, ht, hl⟩ := ih hd'
    exact ⟨t, by rw [runAll_succ hc hr, ht], hl⟩

theorem runAll_prefix {n m : ℕ} (h : runAll env (n + m) d = .ok t) (ht : t.calls ≠ []) :
    ∃ u, runAll env n d = .ok u ∧ u.calls ≠ [] := by
  induction n generalizing d with
  | zero =>
    refine ⟨d, rfl, fun hd => ?_⟩
    rw [runAll_rest hd] at h
    cases h
    exact ht hd
  | succ n ih =>
    cases hc : d.calls with
    | nil =>
      rw [runAll_rest hc] at h
      cases h
      exact absurd hc ht
    | cons call calls =>
      cases hx : Device.run env { d with calls := calls } call with
      | error f =>
        rw [Nat.add_right_comm, DoorbellRouting.runAll, hc] at h
        dsimp only at h
        rw [hx] at h
        cases h
      | ok e =>
        rw [Nat.add_right_comm, runAll_succ hc hx] at h
        obtain ⟨u, hu, hne⟩ := ih h
        exact ⟨u, by rw [runAll_succ hc hx, hu], hne⟩

theorem Looping.calls (h : Looping d) : d.calls ≠ [] := by
  obtain ⟨calls, -, -, -, hc, -⟩ := h
  rw [hc]
  simp

def triggersTx (d : Device) : Bool :=
  d.calls.head? = some (.tx 0) ∧ (d.txqs 0).stack.head?.any Cmd.isResume = true ∧
    (ready (d.txqs 0)).map Segment.d1 = [0x30] ∧ (d.txqs 0).client.tso.tsoOff = 0 ∧ (d.txqs 0).client.tso.tsoLen = 0

theorem looping_of_triggersTx (h : triggersTx d = true) : Looping d := by
  simp only [triggersTx, decide_eq_true_eq] at h
  obtain ⟨hc, hs, hready, hoff, hlen⟩ := h
  obtain ⟨calls, hcalls⟩ := calls_of_head hc
  obtain ⟨rest, hstack⟩ : ∃ rest, (d.txqs 0).stack = .resume () :: rest := by
    cases hst : (d.txqs 0).stack with
    | nil =>
      rw [hst] at hs
      cases hs
    | cons cmd rest =>
      rw [hst] at hs
      cases cmd with
      | resume k => exact ⟨rest, rfl⟩
      | _ => cases hs
  obtain ⟨s, hs1, hd1⟩ : ∃ s, ready (d.txqs 0) = [s] ∧ s.d1 = 0x30 := by
    exact List.map_eq_singleton_iff.mp hready
  obtain ⟨off, len, pktbuf, htso⟩ : ∃ off len pktbuf, (d.txqs 0).client.tso = ⟨off, len, pktbuf⟩ := ⟨_, _, _, rfl⟩
  rw [htso] at hoff hlen
  dsimp only at hoff hlen
  subst hoff hlen
  exact ⟨calls, rest, s, pktbuf, hcalls, hstack, hs1, hd1, htso⟩

theorem hang_eq : (addTxqsDoorbell 0x30 12).toOption.map (fun r => (r.1.atq.q.activeCnt,
    decide (r.1.atq.q.activeFirstIdx < r.2.1.atq.q.len), triggersTx r.2.2)) = some (0, true, true) := by
  decide +kernel

/-- The `add_txqs` command of the tail write triggers the transmit queue, whose loop never ends. -/
theorem doorbell_hangs : ∃ d d', settled.Reachable d ∧ d.calls = [] ∧
    d.regWrite (addTxqsEnv 0x30) Doorbell.atqt.addr 1 = .ok d' ∧
    ∀ n, ∃ t, runAll (addTxqsEnv 0x30) n d' = .ok t ∧ t.calls ≠ [] := by
  obtain ⟨r, hr, hobs⟩ := ok_of_map hang_eq
  simp only [Prod.mk.injEq, decide_eq_true_eq] at hobs
  obtain ⟨hcnt, hidx, hloop⟩ := hobs
  obtain ⟨hreach, hrest, hw, -, hrun⟩ := addTxqsDoorbell_steps hr ⟨hcnt, hidx⟩
  refine ⟨r.1, r.2.1, hreach, hrest, hw, fun n => ?_⟩
  obtain ⟨t, ht, hl⟩ := (looping_of_triggersTx hloop).runAll (addTxqsEnv 0x30) n
  rw [← runAll_add hrun, Nat.add_comm] at ht
  exact runAll_prefix ht hl.calls

theorem returned_eq : (addTxqsDoorbell 0x800000030 100).toOption.map (fun r => (r.1.atq.q.activeCnt,
    decide (r.1.atq.q.activeFirstIdx < r.2.1.atq.q.len), r.2.1.calls, r.2.2.calls,
    calls (r.2.2.txqs 0).log)) = some (0, true, [.atq], [], [.ethSend [0, 0]]) := by
  decide +kernel

/-- With two bytes of data in the descriptor, the same doorbell sends the packet and returns. -/
theorem doorbell_returns_addTxqs : ∃ d t, settled.Reachable d ∧ d.calls = [.atq] ∧ NestedCalls d t ∧ t.calls = [] ∧
    calls (t.txqs 0).log = [.ethSend [0, 0]] ∧ Acc (fun b a => Good a b) d ∧ FetchesOnce d.atq t.atq := by
  obtain ⟨r, hr, hobs⟩ := ok_of_map returned_eq
  simp only [Prod.mk.injEq, decide_eq_true_eq] at hobs
  obtain ⟨hcnt, hidx, hcalls, hrest, hsent⟩ := hobs
  obtain ⟨-, -, -, hreach, hrun⟩ := addTxqsDoorbell_steps hr ⟨hcnt, hidx⟩
  have hn := runAll_nested hrun
  obtain ⟨-, hacc, -, -, honce⟩ := doorbell_returns r.2.1 hreach
  exact ⟨r.2.1, r.2.2, hreach, hcalls, hn, hrest, hsent, hacc, (honce _ hn).1⟩

end Vmux.DoorbellTermination
