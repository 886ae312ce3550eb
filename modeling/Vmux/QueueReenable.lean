import Vmux.DoorbellRouting
import Vmux.QueueRestart

namespace Vmux.QueueReenable

open Bytes CircularWindow Transitions DescriptorQueue AdminQueue LanRx LanTx Registers Nic DoorbellRouting QueueRestart

inductive RingQueue
  | atq
  | rx (i : ℕ)
  | tx (i : ℕ)
deriving DecidableEq, Repr

def logOf (d : Device) : RingQueue → List Event
  | .atq => d.atq.log
  | .rx i => (d.rxqs i).log
  | .tx i => (d.txqs i).log

/-- The step with which the guest enables a queue, and what it has programmed: the registers of the
admin queue, the context of a receive queue, or the context in an `add_txqs` command. -/
def Enables (d : Device) (x : Input) (P : Program) : RingQueue → Prop
  | .atq => ∃ val, x = .write Doorbell.atqlen.addr val ∧ val / 0x80000000 % 2 = 1 ∧ d.atq.q.enabled = false ∧
      P = ⟨d.regs.reg .pfAtqba, val % 0x400, d.regs.reg .pfAtqh, d.atq.q.descLen⟩
  | .rx i => ∃ val, x = .write (Doorbell.rxCtrl i).addr val ∧ i < 2048 ∧ val % 2 = 1 ∧ (d.rxqs i).q.enabled = false ∧
      P = ⟨rxBase (rxContext d.regs i), rxLen (rxContext d.regs i), rxHead (rxContext d.regs i), 32⟩
  | .tx i => x = .run ∧ d.calls.head? = some .atq ∧ ∃ ctx, AddsTxq d.atq i ctx ∧
      P = ⟨txBase ctx, txLen ctx, 0, (d.txqs i).q.descLen⟩

/-- The queue has neither been disabled since nor given another program. -/
def InForce (P : Program) (d : Device) : RingQueue → Prop
  | .atq => atqEnabled d.regs = true ∧ d.regs.reg .pfAtqba = P.base ∧ atqLen d.regs = P.len
  | .rx i => d.regs.arr .qrxEna i % 2 = 1
  | .tx i => d.atq.client.dev.qtxEna i % 2 = 1 ∧ txBase (d.atq.client.dev.ctxAddr i) = P.base ∧
      txLen (d.atq.client.dev.ctxAddr i) = P.len

/-- No descriptor is in flight, and the queue goes on where the new ring starts. `dis_txqs` disables
nothing, so a transmit queue that is already enabled has to have this ring. -/
def Clean (P : Program) (d : Device) : RingQueue → Prop
  | .atq => Drained AdminQueue.subclass P d.atq
  | .rx i => Drained LanRx.subclass P (d.rxqs i)
  | .tx i => Drained LanTx.subclass P (d.txqs i) ∧
      ((d.txqs i).q.enabled = true → (d.txqs i).q.base = P.base ∧ (d.txqs i).q.len = P.len)

section

variable {ε ι σ κ : Type} {S : Subclass ε ι σ κ} {P : Program} {F : Prop} {c c' c₁ : Config σ κ} {old evs : List Event}

/-- The same queue, but for what its client keeps besides contexts. -/
structure Alike (S : Subclass ε ι σ κ) (c c' : Config σ κ) : Prop where
  q : c'.q = c.q
  stack : c'.stack = c.stack
  log : c'.log = c.log
  held : S.held c'.client = S.held c.client

theorem Alike.refl (S : Subclass ε ι σ κ) (c : Config σ κ) : Alike S c c := ⟨rfl, rfl, rfl, rfl⟩

theorem restarted_alike (h : Restarted S P old evs c) (ha : Alike S c c') : Restarted S P old evs c' := by
  have hclaims : claims S c' = claims S c := by rw [claims, claims, ha.stack, ha.held]
  have hset : Settled c' := by
    refine ⟨?_, ?_, ?_⟩
    · rw [ha.stack, ha.q]
      exact h.inv.settled.front
    · rw [ha.stack]
      exact h.inv.settled.below
    · rw [ha.q]
      exact h.inv.settled.states
  refine ⟨⟨?_, ?_, ?_, ?_, hset⟩, ?_, ha.log.trans h.log, ?_, ?_, h.restarts⟩
  · rw [ha.q]
    exact h.inv.enabled
  · rw [ha.q]
    exact h.inv.len_lt
  · rw [ha.q]
    exact h.inv.window
  · rw [hclaims, ha.q]
    exact h.inv.owned
  · rw [ha.q]
    exact h.program
  · rw [ha.q]
    exact h.first
  · rw [ha.q]
    exact h.taken

theorem poked_refl (hs : c.stack = []) : Poked S c c := by
  refine ⟨hs, fun x hx => ?_, rfl, rfl, rfl, rfl, rfl, rfl⟩
  rw [hs] at hx
  cases hx

theorem poked_trans (h : Poked S c c₁) (h' : Poked S c₁ c') : Poked S c c' :=
  ⟨h.rest, h'.pending, h'.log.trans h.log, h'.held.trans h.held, h'.ctxs.trans h.ctxs, h'.first_pos.trans h.first_pos,
    h'.first_idx.trans h.first_idx, h'.cnt.trans h.cnt⟩

theorem poked_regUpdated (hs : c.stack = []) : Poked S c (regUpdated c) := by
  refine ⟨hs, fun x hx => ?_, rfl, rfl, rfl, rfl, rfl, rfl⟩
  have hm : x ∈ trigger κ := by
    simp only [regUpdated, hs, List.append_nil] at hx
    split at hx
    · exact hx
    · cases hx
  simp only [trigger, List.mem_cons, List.not_mem_nil, or_false] at hm
  rcases hm with rfl | rfl | rfl <;> exact ⟨rfl, rfl⟩

/-- What a step of the device does to one of its queues, where `F` says that the program `P` is still
in force after the step. -/
inductive Move (S : Subclass ε ι σ κ) (P : Program) (F : Prop) (c c' : Config σ κ) : Prop
  | alike (h : Alike S c c')
  | exec (env : Env ε) (cmd : Cmd κ) (rest : List (Cmd κ)) (c₁ : Config σ κ) (hs : c.stack = cmd :: rest)
      (he : exec S env { c with stack := rest } cmd = .ok c₁) (h : Alike S c₁ c')
  | poke (h : Poked S c c') (hp : F → Programmed P c.q → Programmed P c'.q)
  | reset (hp : c'.q.activeFirstPos = 0) (hf : ¬F)

theorem Move.same (h : c' = c) : Move S P F c c' := by
  rw [h]
  exact .alike (.refl S c)

theorem Move.after (hm : Move S P F c₁ c') (hp : Poked S c c₁) (hs : c₁.stack = [])
    (hprog : Programmed P c.q → Programmed P c₁.q) : Move S P F c c' := by
  cases hm with
  | alike ha =>
    have hpoke : Poked S c₁ c' := by
      refine ⟨hs, fun x hx => ?_, ha.log, ha.held, ?_, ?_, ?_, ?_⟩
      · rw [ha.stack, hs] at hx
        cases hx
      · rw [ha.q]
      · rw [ha.q]
      · rw [ha.q]
      · rw [ha.q]
    refine .poke (poked_trans hp hpoke) fun _ h => ?_
    rw [ha.q]
    exact hprog h
  | exec env cmd rest c₂ hs' he ha =>
    rw [hs] at hs'
    cases hs'
  | poke h hkeep => exact .poke (poked_trans hp h) fun hf h => hkeep hf (hprog h)
  | reset hz hf => exact .reset hz hf

theorem Move.regUpdated (hs : c.stack = []) : Move S P F c (regUpdated c) :=
  .poke (poked_regUpdated hs) fun _ h => ⟨h.enabled, h.base_eq, h.len_eq, h.descLen_eq⟩

theorem Move.restarted (hm : Move S P F c c') (h : Restarted S P old evs c) (hf : F) :
    ∃ new, Restarted S P old (evs ++ new) c' := by
  cases hm with
  | alike ha =>
    refine ⟨[], ?_⟩
    rw [List.append_nil]
    exact restarted_alike h ha
  | exec env cmd rest c₁ hs he ha =>
    obtain ⟨new, hn⟩ := h.exec hs he
    exact ⟨new, restarted_alike hn ha⟩
  | poke hp hprog =>
    refine ⟨[], ?_⟩
    rw [List.append_nil]
    exact h.poked hp (hprog hf h.program)
  | reset _ hn => exact absurd hf hn

theorem Move.first_pos (hm : Move S P F c c') (hl : Live c) (h : c.q.activeFirstPos < maxActiveDescs) :
    c'.q.activeFirstPos < maxActiveDescs := by
  cases hm with
  | alike ha =>
    rw [ha.q]
    exact h
  | exec env cmd rest c₁ hs he ha =>
    have hen : c.q.enabled = true := hl (by rw [hs]; simp)
    rw [ha.q]
    rcases exec_ring (c := { c with stack := rest }) hen he with
      ⟨-, hr, -⟩ | ⟨-, -, hr, -⟩ | ⟨-, -, hr, -⟩ | ⟨pos, n, -, hq, -⟩
    · exact lt_of_eq_of_lt (congrArg Ring.firstPos hr) h
    · exact lt_of_eq_of_lt (congrArg Ring.firstPos hr) h
    · exact lt_of_eq_of_lt (congrArg Ring.firstPos hr) h
    · rw [hq]
      exact Nat.mod_lt _ (by decide)
  | poke hp _ =>
    rw [hp.first_pos]
    exact h
  | reset hz _ =>
    rw [hz]
    decide

end

/-- The calls that wait for another one to return. -/
inductive Shape : List Call → Prop
  | rest : Shape []
  | one (x : Call) : Shape [x]
  | add (i : ℕ) : Shape [.tx i, .atq]
  | enable (i idx : ℕ) : Shape [.rx i, .tailUpdated idx]

variable {d d' : Device} {P : Program} {i : ℕ}

theorem Shape.tail {x : Call} {rest : List Call} (h : Shape (x :: rest)) : Shape rest := by
  cases h with
  | one x => exact .rest
  | add i => exact .one _
  | enable i idx => exact .one _

theorem Shape.atq {rest : List Call} (h : Shape (.atq :: rest)) : rest = [] := by
  cases h
  rfl

theorem Shape.tailUpdated {idx : ℕ} {rest : List Call} (h : Shape (.tailUpdated idx :: rest)) : rest = [] := by
  cases h
  rfl

theorem calls_of_head {x : Call} (h : d.calls.head? = some x) : ∃ rest, d.calls = x :: rest := by
  cases hc : d.calls with
  | nil =>
    rw [hc] at h
    cases h
  | cons y rest =>
    rw [hc] at h
    exact ⟨rest, by rw [Option.some.inj h]⟩

theorem rxTailUpdated_shape (hs : d.calls = []) (i : ℕ) : Shape (d.rxTailUpdated i).calls := by
  unfold Device.rxTailUpdated
  split
  · change Shape ([.rx i] ++ d.calls)
    rw [hs]
    exact .one _
  · rw [hs]
    exact .rest

theorem Shape.ran (h : Shape d.calls) (ht : Tidy d) (hr : Ran d d') : Shape d'.calls := by
  cases hr with
  | done call rest hs hq hr ht hu =>
    rw [hs] at h
    exact h.tail
  | atq env cmd rest c hc hs he =>
    obtain ⟨below, hb⟩ := calls_of_head hc
    have hnil : below = [] := by
      rw [hb] at h
      exact h.atq
    rw [hnil] at hb
    rcases exec_txqs (ht.atq.live (by rw [hs]; simp)) hs he with ⟨-, hn, -⟩ | ⟨j, ctx, -, -, hn, -⟩
    · rw [hn]
      exact h
    · rw [hn]
      change Shape ((d.setAtq c).txQenaUpdated j).calls
      rcases (ht.execAtq hc hs he).txQenaUpdated_cases j with ⟨-, hd⟩ | ⟨-, -, hd⟩
      · rw [hd]
        exact h
      · rw [hd]
        change Shape ([.tx j] ++ d.calls)
        rw [hb]
        exact .add j
  | rx i env cmd rest c hc hs he => exact h
  | tx i env cmd rest c hc hs he => exact h
  | tailUpdated idx rest hs =>
    rw [hs] at h
    exact rxTailUpdated_shape (d := { d with calls := rest }) h.tailUpdated idx

theorem shape_notify {n : Notify} (ht : Tidy d) (hs : d.calls = []) (hn : d.notify n = .ok d') : Shape d'.calls := by
  have hrest : Shape d.calls := by
    rw [hs]
    exact .rest
  have hone : ∀ x, Shape ([x] ++ d.calls) := by
    intro x
    rw [hs]
    exact .one x
  cases n with
  | tailUpdated j rx =>
    cases rx
    · rw [← Except.ok.inj hn]
      unfold Device.txTailUpdated
      split
      · exact hone (.tx j)
      · exact hrest
    · rw [← Except.ok.inj hn]
      exact rxTailUpdated_shape hs j
  | qenaUpdated j rx =>
    cases rx
    · rw [← Except.ok.inj hn]
      rcases ht.txQenaUpdated_cases j with ⟨-, hd⟩ | ⟨-, -, hd⟩
      · rw [hd]
        exact hrest
      · rw [hd]
        exact hone (.tx j)
    · rcases rxQenaUpdated_cases hn with ⟨-, -, c, val, -, rfl⟩ | ⟨-, -, val, rfl⟩ | ⟨-, rfl⟩
      · change Shape ([.rx j, .tailUpdated (tailIndex d.regs j)] ++ d.calls)
        rw [hs]
        exact .enable _ _
      · exact hrest
      · exact hrest
  | atqRegUpdated =>
    rw [← Except.ok.inj hn]
    exact hone .atq
  | reset =>
    rw [← Except.ok.inj hn]
    exact hrest
  | _ =>
    rw [notify_silent rfl] at hn
    rw [← Except.ok.inj hn]
    exact hrest

theorem packetReceived_cases {env : DeviceEnv} {hint : Option ℕ} {data : List UInt8}
    (hp : d.packetReceived env hint data = .ok d') :
    d' = d ∨ ∃ j c, receive LanRx.subclass (env.env env.rx) (d.rxqs j) data = .ok c ∧
      d' = (d.setRx j c).push [.rx j] := by
  unfold Device.packetReceived at hp
  dsimp only at hp
  split at hp
  · cases hp
  split at hp
  · cases hp
    exact .inl rfl
  · obtain ⟨c, hc, hp⟩ := bind_ok hp
    cases hp
    exact .inr ⟨_, c, hc, rfl⟩

theorem Shape.step {x : Input} (h : Shape d.calls) (ht : Tidy d) (hs : Step d x d') : Shape d'.calls := by
  cases hs with
  | run env call rest hs hr => exact h.ran ht (ran_of_run hs hr)
  | write env addr val hv hs hw =>
    obtain ⟨r, -, ⟨-, rfl⟩ | ⟨n, -, hn⟩⟩ := regWrite_cases hw
    · exact h
    · exact shape_notify (ht.setRegs r.1) hs hn
  | packet env hint data hs hp =>
    rcases packetReceived_cases hp with rfl | ⟨j, c, -, rfl⟩
    · exact h
    · change Shape ([.rx j] ++ d.calls)
      rw [hs]
      exact .one _

theorem Shape.reachable (h : device.Reachable d) : Shape d.calls := by
  induction h with
  | start h =>
    rw [h.calls]
    exact .rest
  | step hs h ih =>
    obtain ⟨x, hx⟩ := h
    exact ih.step (Tidy.reachable hs) hx

theorem stack_of_tailUpdated {idx : ℕ} {rest : List Call} (h : Shape d.calls) (ht : Tidy d)
    (hs : d.calls = .tailUpdated idx :: rest) (i : ℕ) : (d.rxqs i).stack = [] := by
  by_contra hn
  have hm := (ht.rxqs i).listed hn
  rw [hs] at h hm
  rw [h.tailUpdated] at hm
  simp at hm

theorem stack_of_atq (h : Shape d.calls) (ht : Tidy d) (hc : d.calls.head? = some .atq) (i : ℕ) :
    (d.txqs i).stack = [] := by
  by_contra hn
  have hm := (ht.txqs i).listed hn
  obtain ⟨rest, hs⟩ := calls_of_head hc
  rw [hs] at h hm
  rw [h.atq] at hm
  simp at hm

theorem move_rxTailUpdated {F : Prop} (hs : (d.rxqs i).stack = []) (j : ℕ) :
    Move LanRx.subclass P F (d.rxqs i) ((d.rxTailUpdated j).rxqs i) := by
  unfold Device.rxTailUpdated
  split
  · by_cases hj : i = j
    · subst hj
      change Move _ _ _ _ (Function.update d.rxqs i (regUpdated (d.rxqs i)) i)
      rw [Function.update_self]
      exact .regUpdated hs
    · exact .same (Function.update_of_ne hj _ _)
  · exact .same rfl

theorem move_txTailUpdated {F : Prop} (hs : (d.txqs i).stack = []) (j : ℕ) :
    Move LanTx.subclass P F (d.txqs i) ((d.txTailUpdated j).txqs i) := by
  unfold Device.txTailUpdated
  split
  · by_cases hj : i = j
    · subst hj
      change Move _ _ _ _ (Function.update d.txqs i (regUpdated (d.txqs i)) i)
      rw [Function.update_self]
      exact .regUpdated hs
    · exact .same (Function.update_of_ne hj _ _)
  · exact .same rfl

theorem poked_txEnable {ctx : List UInt8} {c : Config TxClient Unit} (hs : c.stack = []) :
    Poked LanTx.subclass c (txEnable ctx c) := by
  have h : Poked LanTx.subclass c { c with
      q := { c.q with base := txBase ctx, len := txLen ctx, enabled := true }
      client := { c.client with hwb := txHwb ctx } } := by
    refine ⟨hs, fun x hx => ?_, rfl, rfl, rfl, rfl, rfl, rfl⟩
    rw [hs] at hx
    cases hx
  exact poked_trans h (poked_regUpdated hs)

theorem move_txQenaUpdated {F : Prop} (ht : Tidy d) (j : ℕ) :
    Move LanTx.subclass P F (d.txqs i) ((d.txQenaUpdated j).txqs i) := by
  rcases ht.txQenaUpdated_cases j with ⟨-, hd⟩ | ⟨hdis, -, hd⟩
  · rw [hd]
    exact .same rfl
  · rw [hd]
    by_cases hj : i = j
    · subst hj
      change Move _ _ _ _ (Function.update d.txqs i (txEnable _ (d.txqs i)) i)
      rw [Function.update_self]
      refine .poke (poked_txEnable ((ht.txqs i).live.stack_eq_nil hdis)) fun _ h => ?_
      rw [h.enabled] at hdis
      cases hdis
    · exact .same (Function.update_of_ne hj _ _)

theorem alike_txQenaUpdated (ht : Tidy d) (j : ℕ) :
    Alike AdminQueue.subclass d.atq (d.txQenaUpdated j).atq ∧ (d.txQenaUpdated j).rxqs = d.rxqs := by
  rcases ht.txQenaUpdated_cases j with ⟨-, hd⟩ | ⟨-, -, hd⟩
  · rw [hd]
    exact ⟨.refl _ _, rfl⟩
  · rw [hd]
    exact ⟨⟨rfl, rfl, rfl, rfl⟩, rfl⟩

theorem rxQenaUpdated_ena (h : d.rxQenaUpdated i = .ok d') : d'.regs.arr .qrxEna i % 2 = d.regs.arr .qrxEna i % 2 := by
  unfold Device.rxQenaUpdated at h
  dsimp only at h
  split at h
  · obtain ⟨c, -, h⟩ := bind_ok h
    cases h
    change (d.regs.store .qrxEna i _).arr .qrxEna i % 2 = _
    rw [store_self, or_qenaStat]
  split at h
  · cases h
    change (d.regs.store .qrxEna i _).arr .qrxEna i % 2 = _
    rw [store_self, qenaStat]
    omega
  · cases h
    rfl

theorem poked_rxEnable {ctx : List UInt8} {c c' : Config RxClient RxPacket} (h : rxEnable ctx c = .ok c')
    (hs : c.stack = []) : Poked LanRx.subclass c c' := by
  have hp : Poked LanRx.subclass c { c with
      q := { c.q with regHead := rxHead ctx, base := rxBase ctx, len := rxLen ctx, descLen := 32, enabled := true }
      client := { c.client with
        dbuffSize := rxDbuffSize ctx, hbuffSize := rxHbuffSize ctx, rxmax := rxMax ctx, crcStrip := rxCrcStrip ctx } } := by
    refine ⟨hs, fun x hx => ?_, rfl, rfl, rfl, rfl, rfl, rfl⟩
    rw [hs] at hx
    cases hx
  rw [rxEnable_ok h]
  exact poked_trans hp (poked_regUpdated hs)

theorem move_rxQenaUpdated {j : ℕ} (hs : (d.rxqs i).stack = []) (h : d.rxQenaUpdated j = .ok d') :
    Move LanRx.subclass P (InForce P d' (.rx i)) (d.rxqs i) (d'.rxqs i) := by
  by_cases hj : i = j
  · subst hj
    have hena := rxQenaUpdated_ena h
    rcases rxQenaUpdated_cases h with ⟨-, hdis, c, val, hc, rfl⟩ | ⟨heven, -, val, rfl⟩ | ⟨-, rfl⟩
    · change Move _ _ _ _ (Function.update d.rxqs i c i)
      rw [Function.update_self]
      refine .poke (poked_rxEnable hc hs) fun _ h => ?_
      rw [h.enabled] at hdis
      cases hdis
    · change Move _ _ _ _ (Function.update d.rxqs i (disable (d.rxqs i)) i)
      rw [Function.update_self]
      refine .poke ⟨hs, fun x hx => ?_, rfl, rfl, rfl, rfl, rfl, rfl⟩ fun hf _ => ?_
      · change x ∈ (d.rxqs i).stack at hx
        rw [hs] at hx
        cases hx
      · change (d.regs.store .qrxEna i val).arr .qrxEna i % 2 = 1 at hf
        change (d.regs.store .qrxEna i val).arr .qrxEna i % 2 = _ at hena
        omega
    · exact .same rfl
  · rcases rxQenaUpdated_cases h with ⟨-, -, c, val, -, rfl⟩ | ⟨-, -, val, rfl⟩ | ⟨-, rfl⟩
    · exact .same (Function.update_of_ne hj _ _)
    · exact .same (Function.update_of_ne hj _ _)
    · exact .same rfl

theorem notify_rx {n : Notify} (ht : Tidy d) (hs : d.calls = []) (hn : d.notify n = .ok d') (i : ℕ) :
    Move LanRx.subclass P (InForce P d' (.rx i)) (d.rxqs i) (d'.rxqs i) := by
  have hnil := (ht.rxqs i).at_rest hs
  cases n with
  | tailUpdated j rx =>
    cases rx
    · rw [← Except.ok.inj hn]
      refine .same ?_
      rw [(modifiesOnly_txTailUpdated d j).rx i (by simp)]
    · rw [← Except.ok.inj hn]
      exact move_rxTailUpdated hnil j
  | qenaUpdated j rx =>
    cases rx
    · rw [← Except.ok.inj hn]
      exact .same (congrFun (alike_txQenaUpdated ht j).2 i)
    · exact move_rxQenaUpdated hnil hn
  | atqRegUpdated =>
    rw [← Except.ok.inj hn]
    exact .same rfl
  | reset =>
    rw [← Except.ok.inj hn]
    refine .reset rfl fun hf => ?_
    cases hf
  | _ =>
    rw [notify_silent rfl] at hn
    rw [← Except.ok.inj hn]
    exact .same rfl

theorem notify_tx {n : Notify} (ht : Tidy d) (hs : d.calls = []) (hn : d.notify n = .ok d') (i : ℕ) :
    Move LanTx.subclass P (InForce P d' (.tx i)) (d.txqs i) (d'.txqs i) := by
  have hnil := (ht.txqs i).at_rest hs
  cases n with
  | tailUpdated j rx =>
    cases rx
    · rw [← Except.ok.inj hn]
      exact move_txTailUpdated hnil j
    · rw [← Except.ok.inj hn]
      refine .same ?_
      rw [(modifiesOnly_rxTailUpdated d j).tx i (by simp)]
  | qenaUpdated j rx =>
    cases rx
    · rw [← Except.ok.inj hn]
      exact move_txQenaUpdated ht j
    · rcases rxQenaUpdated_cases hn with ⟨-, -, c, val, -, rfl⟩ | ⟨-, -, val, rfl⟩ | ⟨-, rfl⟩
      · exact .same rfl
      · exact .same rfl
      · exact .same rfl
  | atqRegUpdated =>
    rw [← Except.ok.inj hn]
    exact .same rfl
  | reset =>
    rw [← Except.ok.inj hn]
    refine .reset rfl fun hf => ?_
    cases hf.1
  | _ =>
    rw [notify_silent rfl] at hn
    rw [← Except.ok.inj hn]
    exact .same rfl

theorem poked_atqRegUpdated (regs : Regs) {c : Config AdminClient Unit} (hs : c.stack = []) :
    Poked AdminQueue.subclass c (Nic.atqRegUpdated regs c) := by
  have hp : Poked AdminQueue.subclass c { c with q := { c.q with
      base := regs.reg .pfAtqba
      len := atqLen regs
      enabled := atqEnabled regs } } := by
    refine ⟨hs, fun x hx => ?_, rfl, rfl, rfl, rfl, rfl, rfl⟩
    rw [hs] at hx
    cases hx
  exact poked_trans hp (poked_regUpdated hs)

theorem notify_atq {n : Notify} (ht : Tidy d) (hs : d.calls = []) (hn : d.notify n = .ok d') :
    Move AdminQueue.subclass P (InForce P d' .atq) d.atq d'.atq := by
  have hnil := ht.atq.at_rest hs
  cases n with
  | tailUpdated j rx =>
    cases rx
    · rw [← Except.ok.inj hn]
      refine .same ?_
      rw [(modifiesOnly_txTailUpdated d j).atq (by simp)]
    · rw [← Except.ok.inj hn]
      refine .same ?_
      rw [(modifiesOnly_rxTailUpdated d j).atq (by simp)]
  | qenaUpdated j rx =>
    cases rx
    · rw [← Except.ok.inj hn]
      exact .alike (alike_txQenaUpdated ht j).1
    · rcases rxQenaUpdated_cases hn with ⟨-, -, c, val, -, rfl⟩ | ⟨-, -, val, rfl⟩ | ⟨-, rfl⟩
      · exact .same rfl
      · exact .same rfl
      · exact .same rfl
  | atqRegUpdated =>
    rw [← Except.ok.inj hn]
    refine .poke (poked_atqRegUpdated d.regs hnil) ?_
    rintro ⟨hen, hbase, hlen⟩ h
    exact ⟨hen, hbase, hlen, h.descLen_eq⟩
  | reset =>
    rw [← Except.ok.inj hn]
    have hoff : ¬atqEnabled Regs.cleared = true := by decide
    exact .reset rfl fun hf => hoff hf.1
  | _ =>
    rw [notify_silent rfl] at hn
    rw [← Except.ok.inj hn]
    exact .same rfl

theorem step_rx {x : Input} (ht : Tidy d) (hsh : Shape d.calls) (hs : Step d x d') (i : ℕ) :
    Move LanRx.subclass P (InForce P d' (.rx i)) (d.rxqs i) (d'.rxqs i) := by
  cases hs with
  | run env call rest hs hr =>
    cases ran_of_run hs hr with
    | done => exact .same rfl
    | atq env cmd rest c hc hs he =>
      rcases exec_txqs (ht.atq.live (by rw [hs]; simp)) hs he with ⟨-, hn, -⟩ | ⟨j, ctx, -, -, hn, -⟩
      · rw [hn]
        exact .same rfl
      · rw [hn]
        exact .same (congrFun (alike_txQenaUpdated (ht.execAtq hc hs he) j).2 i)
    | rx j env cmd rest c hc hs he =>
      by_cases hj : i = j
      · subst hj
        refine .exec env cmd rest c hs he ?_
        change Alike _ c (Function.update d.rxqs i c i)
        rw [Function.update_self]
        exact .refl _ c
      · exact .same (Function.update_of_ne hj _ _)
    | tx => exact .same rfl
    | tailUpdated idx rest hs =>
      exact move_rxTailUpdated (d := { d with calls := rest }) (stack_of_tailUpdated hsh ht hs i) idx
  | write env addr val hv hs hw =>
    have hnil := (ht.rxqs i).at_rest hs
    obtain ⟨r, -, hcases⟩ := regWrite_cases hw
    have hp : Poked LanRx.subclass (d.rxqs i) ((d.setRegs r.1).rxqs i) :=
      ⟨hnil, (poked_refl (S := LanRx.subclass) hnil).pending, rfl, rfl, rfl, rfl, rfl, rfl⟩
    have hprog : Programmed P (d.rxqs i).q → Programmed P ((d.setRegs r.1).rxqs i).q :=
      fun h => ⟨h.enabled, h.base_eq, h.len_eq, h.descLen_eq⟩
    rcases hcases with ⟨-, rfl⟩ | ⟨n, -, hn⟩
    · exact .poke hp fun _ => hprog
    · exact (notify_rx (ht.setRegs r.1) hs hn i).after hp hnil hprog
  | packet env hint data hs hp =>
    rcases packetReceived_cases hp with rfl | ⟨j, c, hc, rfl⟩
    · exact .same rfl
    · by_cases hj : i = j
      · subst hj
        obtain ⟨k, rfl⟩ := receive_ok hc
        have hnil := (ht.rxqs i).at_rest hs
        change Move _ _ _ _ (Function.update d.rxqs i _ i)
        rw [Function.update_self]
        refine .poke ⟨hnil, fun x hx => ?_, rfl, rfl, rfl, rfl, rfl, rfl⟩ fun _ h => h
        rw [hnil, List.append_nil] at hx
        obtain ⟨r, -, rfl⟩ := List.mem_map.mp hx
        exact ⟨rfl, rfl⟩
      · exact .same (Function.update_of_ne hj _ _)

theorem step_tx {x : Input} (ht : Tidy d) (hs : Step d x d') (i : ℕ) :
    Move LanTx.subclass P (InForce P d' (.tx i)) (d.txqs i) (d'.txqs i) := by
  cases hs with
  | run env call rest hs hr =>
    cases ran_of_run hs hr with
    | done => exact .same rfl
    | atq env cmd rest c hc hs he =>
      rcases exec_txqs (ht.atq.live (by rw [hs]; simp)) hs he with ⟨-, hn, -⟩ | ⟨j, ctx, -, -, hn, -⟩
      · rw [hn]
        exact .same rfl
      · rw [hn]
        exact move_txQenaUpdated (ht.execAtq hc hs he) j
    | rx => exact .same rfl
    | tx j env cmd rest c hc hs he =>
      by_cases hj : i = j
      · subst hj
        refine .exec env cmd rest c hs he ?_
        change Alike _ c (Function.update d.txqs i c i)
        rw [Function.update_self]
        exact .refl _ c
      · exact .same (Function.update_of_ne hj _ _)
    | tailUpdated idx rest hs =>
      refine .same ?_
      rw [(modifiesOnly_rxTailUpdated { d with calls := rest } idx).tx i (by simp)]
  | write env addr val hv hs hw =>
    have hnil := (ht.txqs i).at_rest hs
    obtain ⟨r, -, hcases⟩ := regWrite_cases hw
    have hp : Poked LanTx.subclass (d.txqs i) ((d.setRegs r.1).txqs i) :=
      ⟨hnil, (poked_refl (S := LanTx.subclass) hnil).pending, rfl, rfl, rfl, rfl, rfl, rfl⟩
    have hprog : Programmed P (d.txqs i).q → Programmed P ((d.setRegs r.1).txqs i).q :=
      fun h => ⟨h.enabled, h.base_eq, h.len_eq, h.descLen_eq⟩
    rcases hcases with ⟨-, rfl⟩ | ⟨n, -, hn⟩
    · exact .poke hp fun _ => hprog
    · exact (notify_tx (ht.setRegs r.1) hs hn i).after hp hnil hprog
  | packet env hint data hs hp =>
    rcases packetReceived_cases hp with rfl | ⟨j, c, -, rfl⟩
    · exact .same rfl
    · exact .same rfl

theorem step_atq {x : Input} (ht : Tidy d) (hs : Step d x d') :
    Move AdminQueue.subclass P (InForce P d' .atq) d.atq d'.atq := by
  cases hs with
  | run env call rest hs hr =>
    cases ran_of_run hs hr with
    | done => exact .same rfl
    | atq env cmd rest c hc hs he =>
      refine .exec env cmd rest c hs he ?_
      rcases exec_txqs (ht.atq.live (by rw [hs]; simp)) hs he with ⟨-, hn, -⟩ | ⟨j, ctx, -, -, hn, -⟩
      · rw [hn]
        exact .refl _ c
      · rw [hn]
        exact (alike_txQenaUpdated (ht.execAtq hc hs he) j).1
    | rx => exact .same rfl
    | tx => exact .same rfl
    | tailUpdated idx rest hs =>
      refine .same ?_
      rw [(modifiesOnly_rxTailUpdated { d with calls := rest } idx).atq (by simp)]
  | write env addr val hv hs hw =>
    have hnil := ht.atq.at_rest hs
    obtain ⟨r, -, hcases⟩ := regWrite_cases hw
    have hp : Poked AdminQueue.subclass d.atq (d.setRegs r.1).atq :=
      ⟨hnil, (poked_refl (S := AdminQueue.subclass) hnil).pending, rfl, rfl, rfl, rfl, rfl, rfl⟩
    have hprog : Programmed P d.atq.q → Programmed P (d.setRegs r.1).atq.q :=
      fun h => ⟨h.enabled, h.base_eq, h.len_eq, h.descLen_eq⟩
    rcases hcases with ⟨-, rfl⟩ | ⟨n, -, hn⟩
    · exact .poke hp fun _ => hprog
    · exact (notify_atq (ht.setRegs r.1) hs hn).after hp hnil hprog
  | packet env hint data hs hp =>
    rcases packetReceived_cases hp with rfl | ⟨j, c, -, rfl⟩
    · exact .same rfl
    · exact .same rfl

def RestartedAt (P : Program) (old evs : List Event) (d : Device) : RingQueue → Prop
  | .atq => Restarted AdminQueue.subclass P old evs d.atq
  | .rx i => Restarted LanRx.subclass P old evs (d.rxqs i)
  | .tx i => Restarted LanTx.subclass P old evs (d.txqs i)

variable {old evs : List Event} {e : RingQueue} {x : Input}

theorem RestartedAt.step (h : RestartedAt P old evs d e) (ht : Tidy d) (hsh : Shape d.calls) (hs : Step d x d')
    (hf : InForce P d' e) : ∃ new, RestartedAt P old (evs ++ new) d' e := by
  cases e with
  | atq => exact (step_atq ht hs).restarted h hf
  | rx i => exact (step_rx ht hsh hs i).restarted h hf
  | tx i => exact (step_tx ht hs i).restarted h hf

theorem RestartedAt.restarts (h : RestartedAt P old evs d e) : logOf d e = old ++ evs ∧ Restarts P evs := by
  cases e with
  | atq => exact ⟨h.log, Restarted.restarts h⟩
  | rx i => exact ⟨h.log, Restarted.restarts h⟩
  | tx i => exact ⟨h.log, Restarted.restarts h⟩

structure Positioned (d : Device) : Prop where
  atq : d.atq.q.activeFirstPos < maxActiveDescs
  rx : ∀ i, (d.rxqs i).q.activeFirstPos < maxActiveDescs
  tx : ∀ i, (d.txqs i).q.activeFirstPos < maxActiveDescs

theorem Positioned.reachable (h : device.Reachable d) : Positioned d := by
  induction h with
  | start h =>
    refine ⟨?_, fun i => ?_, fun i => ?_⟩
    · rw [h.atq.first_pos]
      decide
    · rw [(h.rxqs i).first_pos]
      decide
    · rw [(h.txqs i).first_pos]
      decide
  | step hs h ih =>
    obtain ⟨x, hx⟩ := h
    have ht := Tidy.reachable hs
    -- which program is in force does not matter here
    let P : Program := ⟨0, 0, 0, 0⟩
    exact ⟨(step_atq (P := P) ht hx).first_pos ht.atq.live ih.atq,
      fun i => (step_rx (P := P) ht (.reachable hs) hx i).first_pos (ht.rxqs i).live (ih.rx i),
      fun i => (step_tx (P := P) ht hx i).first_pos (ht.txqs i).live (ih.tx i)⟩

theorem start_atq (ht : Tidy d) (hpos : Positioned d) (hs : Step d x d') (he : Enables d x P .atq)
    (hc : Clean P d .atq) : RestartedAt P d.atq.log [] d' .atq := by
  obtain ⟨val, rfl, hval, -, rfl⟩ := he
  cases hs with
  | write env addr val hv hs hw =>
    have hd := Except.ok.inj (doorbell_notify (b := .atqlen) trivial hw)
    have hnil := ht.atq.at_rest hs
    have hp : Poked AdminQueue.subclass d.atq (d.setRegs (Doorbell.atqlen.stored d.regs val)).atq :=
      ⟨hnil, (poked_refl (S := AdminQueue.subclass) hnil).pending, rfl, rfl, rfl, rfl, rfl, rfl⟩
    rw [← hd]
    refine hc.restarted hpos.atq (poked_trans hp (poked_atqRegUpdated _ hnil)) ⟨?_, rfl, rfl, rfl⟩
      (Nat.lt_trans (Nat.mod_lt _ (by decide)) (by decide))
    change decide (val / 0x80000000 % 2 = 1) = true
    rw [hval]
    rfl

theorem start_rx (ht : Tidy d) (hpos : Positioned d) (hs : Step d x d') (he : Enables d x P (.rx i))
    (hc : Clean P d (.rx i)) : RestartedAt P (d.rxqs i).log [] d' (.rx i) := by
  obtain ⟨val, rfl, hi, hodd, hdis, rfl⟩ := he
  cases hs with
  | write env addr val hv hs hw =>
    have hd : (d.setRegs ((Doorbell.rxCtrl i).stored d.regs val)).rxQenaUpdated i = .ok d' :=
      doorbell_notify (b := .rxCtrl i) hi hw
    have hnil := (ht.rxqs i).at_rest hs
    have hp : Poked LanRx.subclass (d.rxqs i) ((d.setRegs ((Doorbell.rxCtrl i).stored d.regs val)).rxqs i) :=
      ⟨hnil, (poked_refl (S := LanRx.subclass) hnil).pending, rfl, rfl, rfl, rfl, rfl, rfl⟩
    have hena : ((Doorbell.rxCtrl i).stored d.regs val).arr .qrxEna i = val := store_self _ _ _ _
    rcases rxQenaUpdated_cases hd with ⟨-, -, c, v, hrx, rfl⟩ | ⟨heven, -, -⟩ | ⟨hiff, -⟩
    · change rxEnable (rxContext ((Doorbell.rxCtrl i).stored d.regs val) i) _ = _ at hrx
      rw [rxContext_stored] at hrx
      change Restarted LanRx.subclass _ _ _ (Function.update
        (d.setRegs ((Doorbell.rxCtrl i).stored d.regs val)).rxqs i c i)
      rw [Function.update_self]
      refine hc.restarted (hpos.rx i) (poked_trans hp (poked_rxEnable hrx hnil)) ?_
        (Nat.lt_trans (Nat.mod_lt _ (by decide)) (by decide))
      rw [rxEnable_ok hrx]
      exact ⟨rfl, rfl, rfl, rfl⟩
    · change ((Doorbell.rxCtrl i).stored d.regs val).arr .qrxEna i % 2 = 0 at heven
      omega
    · change ((Doorbell.rxCtrl i).stored d.regs val).arr .qrxEna i % 2 = 1 ↔ (d.rxqs i).q.enabled = true at hiff
      rw [hena, hdis] at hiff
      cases hiff.mp hodd

theorem start_tx (ht : Tidy d) (hsh : Shape d.calls) (hpos : Positioned d) (hs : Step d x d')
    (he : Enables d x P (.tx i)) (hc : Clean P d (.tx i)) : RestartedAt P (d.txqs i).log [] d' (.tx i) := by
  obtain ⟨rfl, hhead, ctx, hadd, rfl⟩ := he
  obtain ⟨hdrained, hsame⟩ := hc
  have hlen : txLen ctx < 0x4000 := Nat.mod_lt _ (by decide)
  have hnil := stack_of_atq hsh ht hhead i
  have hne : d.atq.stack ≠ [] := by
    obtain ⟨a, b, rest, hst, -⟩ := hadd
    rw [hst]
    simp
  cases hs with
  | run env call rest hs hr =>
    cases ran_of_run hs hr with
    | done call rest hs hq hr ht hu =>
      rw [hs] at hhead
      cases hhead
      exact absurd (hq rfl) hne
    | atq env cmd rest c hc hs he =>
      rcases exec_txqs (ht.atq.live hne) hs he with ⟨hno, -⟩ | ⟨j, ctx', hadd', -, hn, hena, hctx⟩
      · exact absurd hadd (hno i ctx)
      obtain ⟨rfl, rfl⟩ := addsTxq_unique hadd hadd'
      rw [hn]
      change Restarted LanTx.subclass _ _ _ (((d.setAtq c).txQenaUpdated i).txqs i)
      have haddr : (d.setAtq c).atq.client.dev.ctxAddr i = ctx := by
        change c.client.dev.ctxAddr i = ctx
        rw [hctx, Function.update_self]
      rcases (ht.execAtq hc hs he).txQenaUpdated_cases i with ⟨hen | hz, hd⟩ | ⟨-, -, hd⟩
      · rw [hd]
        obtain ⟨hbase, hlen'⟩ := hsame hen
        exact hdrained.restarted (hpos.tx i) (poked_refl hnil) ⟨hen, hbase, hlen', rfl⟩ hlen
      · change c.client.dev.qtxEna i % 2 = 0 at hz
        rw [hena, Function.update_self] at hz
        cases hz
      · rw [hd, haddr]
        change Restarted LanTx.subclass _ _ _ (Function.update d.txqs i (txEnable ctx (d.txqs i)) i)
        rw [Function.update_self]
        exact hdrained.restarted (hpos.tx i) (poked_txEnable hnil) ⟨rfl, rfl, rfl, rfl⟩ hlen
    | rx j env cmd rest c hc hs he =>
      rw [hc] at hhead
      cases hhead
    | tx j env cmd rest c hc hs he =>
      rw [hc] at hhead
      cases hhead
    | tailUpdated idx rest hs =>
      rw [hs] at hhead
      cases hhead

/-- A queue that is enabled with nothing in flight, at the head it had reached, only deals with
descriptors of its new ring until it is disabled, given another program or reset. -/
theorem reenable_starts_clean (d d' t : Device) (x : Input) (P : Program) (e : RingQueue) (h : device.Reachable d)
    (hs : Step d x d') (he : Enables d x P e) (hc : Clean P d e)
    (hr : Relation.ReflTransGen (fun a b => device.step a b ∧ InForce P b e) d' t) :
    ∃ evs, logOf t e = logOf d e ++ evs ∧ Restarts P evs := by
  have ht := Tidy.reachable h
  have hsh := Shape.reachable h
  have hpos := Positioned.reachable h
  have hstart : RestartedAt P (logOf d e) [] d' e := by
    cases e with
    | atq => exact start_atq ht hpos hs he hc
    | rx i => exact start_rx ht hpos hs he hc
    | tx i => exact start_tx ht hsh hpos hs he hc
  have hrun : device.Reachable t ∧ ∃ evs, RestartedAt P (logOf d e) evs t e := by
    induction hr with
    | refl => exact ⟨.step h ⟨x, hs⟩, [], hstart⟩
    | tail _ hstep ih =>
      obtain ⟨⟨y, hy⟩, hf⟩ := hstep
      obtain ⟨hreach, evs, hevs⟩ := ih
      obtain ⟨new, hnew⟩ := hevs.step (.reachable hreach) (.reachable hreach) hy hf
      exact ⟨.step hreach ⟨y, hy⟩, _, hnew⟩
  obtain ⟨-, evs, hevs⟩ := hrun
  exact ⟨evs, hevs.restarts⟩

/-- The guest runs one command, disables the admin queue and programs another ring with this head. -/
def reprogram (head : ℕ) : List (ℕ × ℕ) :=
  [(0x080000, 0x4000), (0x080200, 0x80000004), (0x080400, 1), (0x080200, 4), (0x080000, 0x5000), (0x080300, head),
   (0x080400, 0)]

/-- Then it enables the queue, which starts to fetch. -/
def reenableRun (head : ℕ) : Except Fault (Device × Device × Device) := do
  let d ← guestWrites guestEnv 300 (reprogram head) zeroed
  let d' ← d.regWrite guestEnv 0x080200 0x80000004
  let t ← Device.run guestEnv { d' with calls := [] } .atq
  .ok (d, d', t)

def reenabled (head : ℕ) (d d' t : Device) : Bool :=
  d.atq.q.enabled = false ∧ d.regs.reg .pfAtqba = 0x5000 ∧ d.regs.reg .pfAtqh = head ∧ d.atq.q.descLen = 32 ∧
    d.atq.q.activeCnt = 0 ∧ (∀ p, d.atq.q.states p = .empty) ∧ AdminQueue.subclass.held d.atq.client = [] ∧
    d.atq.q.activeFirstIdx = 1 ∧ d'.calls = [.atq] ∧ t.atq.log = d.atq.log ++ [.fetch 1 1 3 0x5020] ∧
    atqEnabled t.regs = true ∧ t.regs.reg .pfAtqba = 0x5000 ∧ atqLen t.regs = 4

theorem reenableRun_eq : ∀ head < 2, (reenableRun head).toOption.map (fun r => reenabled head r.1 r.2.1 r.2.2) = some true := by
  decide +kernel

theorem reenableRun_steps {head : ℕ} (hh : head < 2) :
    ∃ d d' t, guestWrites guestEnv 300 (reprogram head) zeroed = .ok d ∧ device.Reachable d ∧
      Step d (.write 0x080200 0x80000004) d' ∧ Step d' .run t ∧ reenabled head d d' t = true := by
  obtain ⟨r, hr, hobs⟩ := ok_of_map (reenableRun_eq head hh)
  obtain ⟨d, hd, hr⟩ := bind_ok hr
  obtain ⟨d', hd', hr⟩ := bind_ok hr
  obtain ⟨t, ht, hr⟩ := bind_ok hr
  cases hr
  have hv : ∀ w ∈ reprogram head, w.2 < 0x100000000 := by
    intro w hw
    simp only [reprogram, List.mem_cons, List.not_mem_nil, or_false] at hw
    rcases hw with rfl | rfl | rfl | rfl | rfl | rfl | rfl <;> dsimp only <;> omega
  obtain ⟨hreach, hrest⟩ := guestWrites_reachable hv (.start zeroed_fresh) rfl hd
  have hcalls : d'.calls = [.atq] := by
    simp only [reenabled, decide_eq_true_eq] at hobs
    exact hobs.2.2.2.2.2.2.2.2.1
  exact ⟨d, d', t, hd, hreach, .write guestEnv _ _ (by decide) hrest hd', .run guestEnv .atq [] hcalls ht, hobs⟩

theorem reenable_starts_clean_atq :
    ∃ d d' t evs, device.Reachable d ∧ Step d (.write 0x080200 0x80000004) d' ∧ Step d' .run t ∧
      logOf t .atq = logOf d .atq ++ evs ∧ evs ≠ [] ∧ Restarts ⟨0x5000, 4, 1, 32⟩ evs := by
  obtain ⟨d, d', t, -, hreach, hw, hrun, hobs⟩ := reenableRun_steps (by decide : 1 < 2)
  simp only [reenabled, decide_eq_true_eq] at hobs
  obtain ⟨hdis, hbase, hhead, hdl, hcnt, hempty, hheld, hidx, -, hlog, hf⟩ := hobs
  have hen : Enables d (.write 0x080200 0x80000004) ⟨0x5000, 4, 1, 32⟩ .atq :=
    ⟨0x80000004, rfl, rfl, hdis, by rw [hbase, hhead, hdl]⟩
  obtain ⟨evs, hevs, hrestarts⟩ := reenable_starts_clean d d' t _ _ .atq hreach hw hen
    ⟨hcnt, hempty, hheld, hidx, by decide⟩ (.single ⟨⟨_, hrun⟩, hf⟩)
  refine ⟨d, d', t, evs, hreach, hw, hrun, hevs, ?_, hrestarts⟩
  rintro rfl
  change t.atq.log = d.atq.log ++ [] at hevs
  rw [hlog] at hevs
  exact absurd (List.append_cancel_left hevs) (by simp)

/-- The admin queue is enabled with a new ring and head 0, and fetches from index 1. -/
theorem reenable_skips_head :
    ∃ d d' t, guestWrites guestEnv 300 (reprogram 0) zeroed = .ok d ∧ device.Reachable d ∧
      Step d (.write 0x080200 0x80000004) d' ∧ Enables d (.write 0x080200 0x80000004) ⟨0x5000, 4, 0, 32⟩ .atq ∧
      device.step d' t ∧ InForce ⟨0x5000, 4, 0, 32⟩ t .atq ∧
      ¬∃ evs, logOf t .atq = logOf d .atq ++ evs ∧ Restarts ⟨0x5000, 4, 0, 32⟩ evs := by
  obtain ⟨d, d', t, hd, hreach, hw, hrun, hobs⟩ := reenableRun_steps (by decide : 0 < 2)
  simp only [reenabled, decide_eq_true_eq] at hobs
  obtain ⟨hdis, hbase, hhead, hdl, -, -, -, -, -, hlog, hf⟩ := hobs
  refine ⟨d, d', t, hd, hreach, hw, ⟨0x80000004, rfl, rfl, hdis, by rw [hbase, hhead, hdl]⟩, ⟨_, hrun⟩, hf, ?_⟩
  rintro ⟨evs, hevs, hrestarts⟩
  change t.atq.log = d.atq.log ++ evs at hevs
  rw [hlog] at hevs
  have hfetch := hrestarts [] _ [] (List.append_cancel_left hevs).symm
  exact absurd (hfetch.2.2 (by simp)) (by decide)

end Vmux.QueueReenable
