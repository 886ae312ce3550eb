import Vmux.Nic
import Vmux.RingSteps

namespace Vmux.Nic

open Bytes CircularWindow Transitions DescriptorQueue AdminQueue LanRx LanTx Registers SwitchIsolation SwitchRules

section

variable {ε ι σ κ : Type} {S : Subclass ε ι σ κ} {env : Env ε} {c c' : Config σ κ} {cmd : Cmd κ}

/-- Only a queue that is enabled has something left to do. -/
def Live (c : Config σ κ) : Prop := c.stack ≠ [] → c.q.enabled = true

theorem Live.of_enabled (h : c.q.enabled = true) : Live c := fun _ => h

theorem Live.of_nil (h : c.stack = []) : Live c := fun hn => absurd h hn

theorem Live.stack_eq_nil (h : Live c) (hd : c.q.enabled = false) : c.stack = [] := by
  by_contra hn
  rw [h hn] at hd
  cases hd

theorem exec_registers (he : c.q.enabled = true) (h : exec S env c cmd = .ok c') :
    c'.q.enabled = true ∧ c'.q.regTail = c.q.regTail := by
  rcases exec_ring he h with ⟨-, hr, -⟩ | ⟨-, -, hr, -⟩ | ⟨-, -, hr, -⟩ | ⟨pos, n, -, hq, -⟩
  · exact ⟨(congrArg Ring.enabled hr).trans he, congrArg Ring.tail hr⟩
  · exact ⟨(congrArg Ring.enabled hr).trans he, congrArg Ring.tail hr⟩
  · exact ⟨(congrArg Ring.enabled hr).trans he, congrArg Ring.tail hr⟩
  · rw [hq]
    exact ⟨he, rfl⟩

end

def opcodeAddTxqs : ℕ := 0x0C30

/-- What a command does to the transmit queues: only `add_txqs` enables one. -/
structure TxqEffect (dev : AdminDev) (desc data : List UInt8) (h : Handled) : Prop where
  other : opcode desc ≠ opcodeAddTxqs → h.dev.qtxEna = dev.qtxEna ∧ h.dev.ctxAddr = dev.ctxAddr ∧
    ∀ i, .qenaUpdated i ∉ h.calls
  add : opcode desc = opcodeAddTxqs → get16 data 8 < AdminQueue.numQueues ∧ h.calls = [.qenaUpdated (get16 data 8)] ∧
    h.dev.qtxEna = Function.update dev.qtxEna (get16 data 8) qenaReq ∧
    h.dev.ctxAddr = Function.update dev.ctxAddr (get16 data 8) (slice data 16 22)

theorem TxqEffect.ok {dev : AdminDev} {desc data : List UInt8} {h h' : Handled} (hd : opcode desc ≠ opcodeAddTxqs)
    (hh : (Except.ok h' : Except Fault Handled) = .ok h) (hc : h'.calls = []) (hq : h'.dev.qtxEna = dev.qtxEna)
    (hx : h'.dev.ctxAddr = dev.ctxAddr) : TxqEffect dev desc data h := by
  cases hh
  exact ⟨fun _ => ⟨hq, hx, by simp [hc]⟩, fun he => absurd he hd⟩

theorem TxqEffect.replyData {dev dev' : AdminDev} {desc data desc' data' : List UInt8} {calls : List Output}
    {h : Handled} (hd : opcode desc ≠ opcodeAddTxqs) (hh : replyData desc' data' dev' calls = .ok h)
    (hc : ∀ i, .qenaUpdated i ∉ calls) (hq : dev'.qtxEna = dev.qtxEna) (hx : dev'.ctxAddr = dev.ctxAddr) :
    TxqEffect dev desc data h := by
  obtain ⟨h1, h2⟩ := replyData_ok hh
  rw [← h1] at hq hx
  rw [← h2] at hc
  exact ⟨fun _ => ⟨hq, hx, hc⟩, fun he => absurd he hd⟩

theorem addSchedElems_txqs {p : Slot} {n i : ℕ} {data : List UInt8} {dev : AdminDev} {r : List UInt8 × AdminDev}
    (h : addSchedElems p n i data dev = .ok r) : r.2.qtxEna = dev.qtxEna ∧ r.2.ctxAddr = dev.ctxAddr := by
  induction n generalizing i data dev with
  | zero =>
    cases h
    exact ⟨rfl, rfl⟩
  | succ n ih =>
    obtain ⟨_, -, h⟩ := bind_ok h
    obtain ⟨h1, h2⟩ := ih h
    exact ⟨h1, h2⟩

theorem addSwRules_txqs {dev : AdminDev} {desc data : List UInt8} {h : Handled} (hd : opcode desc ≠ opcodeAddTxqs)
    (hh : addSwRules dev desc data = .ok h) : TxqEffect dev desc data h := by
  obtain ⟨_, -, hh⟩ := bind_ok hh
  refine .replyData hd hh ?_ rfl rfl
  intro i
  split <;> simp

theorem handle_txqs {env : AdminEnv} {dev : AdminDev} {ctxs : Slot → DescCtx} {p : Slot} {h : Handled}
    (hh : handle env dev ctxs p = .ok h) : TxqEffect dev (ctxs p).desc (ctxs p).data h := by
  have hnil : ∀ i, Output.qenaUpdated i ∉ ([] : List Output) := by simp
  unfold handle at hh
  dsimp only at hh
  split at hh
  all_goals
    rename_i hop
    try have hd : opcode (ctxs p).desc ≠ opcodeAddTxqs := by rw [hop]; decide
  all_goals with_reducible first
    | exact .ok hd hh rfl rfl rfl
    | exact .replyData hd hh hnil rfl rfl
    | skip
  · split at hh
    · exact .ok hd hh rfl rfl rfl
    · exact .ok hd hh rfl rfl rfl
  · split at hh
    · exact .ok hd hh rfl rfl rfl
    · exact .ok hd hh rfl rfl rfl
  · refine .replyData hd hh hnil ?_ ?_
    · split <;> rfl
    · split <;> rfl
  · obtain ⟨_, -, hh⟩ := bind_ok hh
    obtain ⟨_, -, hh⟩ := bind_ok hh
    exact .replyData hd hh hnil rfl rfl
  · obtain ⟨_, -, hh⟩ := bind_ok hh
    exact .ok hd hh rfl rfl rfl
  · obtain ⟨_, -, hh⟩ := bind_ok hh
    obtain ⟨_, -, hh⟩ := bind_ok hh
    exact .ok hd hh rfl rfl rfl
  · obtain ⟨_, -, hh⟩ := bind_ok hh
    obtain ⟨_, -, hh⟩ := bind_ok hh
    obtain ⟨_, -, hh⟩ := bind_ok hh
    exact .ok hd hh rfl rfl rfl
  · obtain ⟨_, -, hh⟩ := bind_ok hh
    obtain ⟨r, hr, hh⟩ := bind_ok hh
    obtain ⟨h1, h2⟩ := addSchedElems_txqs hr
    exact .replyData hd hh hnil h1 h2
  · obtain ⟨_, -, hh⟩ := bind_ok hh
    split at hh
    · cases hh
    · rename_i hlt
      cases hh
      exact ⟨fun hne => absurd hop hne, fun _ => ⟨by omega, rfl, rfl, rfl⟩⟩
  · obtain ⟨_, -, hh⟩ := bind_ok hh
    exact .replyData hd hh hnil rfl rfl
  · exact addSwRules_txqs hd hh
  · exact .ok (show opcode (ctxs p).desc ≠ 0x0C30 from ‹_›) hh rfl rfl rfl

/-- The next command of the admin queue is an `add_txqs` with this queue and this context. -/
def AddsTxq (c : AdminConfig) (i : ℕ) (ctx : List UInt8) : Prop :=
  ∃ a b rest, c.stack = .processLoop a b :: rest ∧ a + b < c.q.activeCnt ∧
    c.q.stateAt (c.q.activeFirstPos + (a + b)) = .prepared ∧
    opcode (c.q.ctx (c.q.activeFirstPos + (a + b))).desc = opcodeAddTxqs ∧
    i = get16 (c.q.ctx (c.q.activeFirstPos + (a + b))).data 8 ∧
    ctx = slice (c.q.ctx (c.q.activeFirstPos + (a + b))).data 16 22

theorem addsTxq_unique {c : AdminConfig} {i j : ℕ} {a b : List UInt8} (ha : AddsTxq c i a) (hb : AddsTxq c j b) :
    i = j ∧ a = b := by
  obtain ⟨x, y, rest, hs, -, -, -, rfl, rfl⟩ := ha
  obtain ⟨x', y', rest', hs', -, -, -, rfl, rfl⟩ := hb
  rw [hs] at hs'
  cases hs'
  exact ⟨rfl, rfl⟩

theorem enabledTxqs_append (a b : List Event) : enabledTxqs (a ++ b) = enabledTxqs a ++ enabledTxqs b :=
  List.filterMap_append

theorem enabledTxqs_eq_nil {log : List Event} (h : ∀ i, .call (.qenaUpdated i) ∉ log) : enabledTxqs log = [] := by
  rw [enabledTxqs, List.filterMap_eq_nil_iff]
  intro e he
  cases e with
  | call o =>
    cases o with
    | qenaUpdated i => exact absurd he (h i)
    | _ => rfl
  | _ => rfl

theorem enabledTxqs_effect (e : Effect AdminClient Unit) :
    enabledTxqs (e.calls.map Event.call ++ e.write.toList.map fun w => .dataWrite w.1 w.2.1 w.2.2) =
      enabledTxqs (e.calls.map Event.call) := by
  have hw : enabledTxqs (e.write.toList.map fun w => .dataWrite w.1 w.2.1 w.2.2) = [] :=
    enabledTxqs_eq_nil (by simp)
  rw [enabledTxqs_append, hw, List.append_nil]

theorem exec_txqs {env : Env AdminEnv} {c c' : AdminConfig} {cmd : Cmd Unit} {rest : List (Cmd Unit)}
    (he : c.q.enabled = true) (hs : c.stack = cmd :: rest)
    (h : exec AdminQueue.subclass env { c with stack := rest } cmd = .ok c') :
    ((∀ i ctx, ¬AddsTxq c i ctx) ∧ enabledTxqs (c'.log.drop c.log.length) = [] ∧
      c'.client.dev.qtxEna = c.client.dev.qtxEna ∧ c'.client.dev.ctxAddr = c.client.dev.ctxAddr) ∨
    ∃ i ctx, AddsTxq c i ctx ∧ i < AdminQueue.numQueues ∧ enabledTxqs (c'.log.drop c.log.length) = [i] ∧
      c'.client.dev.qtxEna = Function.update c.client.dev.qtxEna i qenaReq ∧
      c'.client.dev.ctxAddr = Function.update c.client.dev.ctxAddr i ctx := by
  rcases exec_subclass (c := { c with stack := rest }) he h with
    hq | ⟨a, b, p, e, rfl, rfl, hlt, hst, hp, ha⟩ | ⟨k, e, rfl, hr, ha⟩
  · obtain ⟨new, hlog, hn, -⟩ := hq.log
    refine .inl ⟨?_, ?_, by rw [hq.client], by rw [hq.client]⟩
    · rintro i ctx ⟨a, b, rest', hs', hlt, hst, -⟩
      rw [hs] at hs'
      cases hs'
      exact (hq.cmd.2 a b rfl).2 ⟨hlt, hst⟩
    · rw [hlog, List.drop_left]
      exact enabledTxqs_eq_nil fun i => hn _
  · obtain ⟨x, hx, hc⟩ := bind_ok hp
    obtain ⟨h1, h2⟩ := complete_ok hc
    have hx := handle_txqs hx
    obtain ⟨hdesc, hdata⟩ := setState_desc c.q (slot maxActiveDescs (c.q.activeFirstPos + (a + b)))
      (slot maxActiveDescs (c.q.activeFirstPos + (a + b))) .processing
    dsimp only at hx
    rw [hdesc, hdata] at hx
    have hnew : enabledTxqs (c'.log.drop c.log.length) = enabledTxqs (x.calls.map Event.call) := by
      have hl : ∀ pr ev : List Event, (c.log ++ pr ++ ev).drop c.log.length = pr ++ ev := by simp
      rw [ha.log, enterProcess, hl, enabledTxqs_append, enabledTxqs_effect, h2]
      rfl
    rw [hnew, ha.client, h1]
    by_cases hop : opcode (c.q.ctx (c.q.activeFirstPos + (a + b))).desc = opcodeAddTxqs
    · obtain ⟨hb, hcalls, hena, hctx⟩ := hx.add hop
      refine .inr ⟨_, _, ⟨a, b, rest, hs, hlt, hst, hop, rfl, rfl⟩, hb, ?_, hena, hctx⟩
      rw [hcalls]
      rfl
    · obtain ⟨hena, hctx, hcalls⟩ := hx.other hop
      refine .inl ⟨?_, ?_, hena, hctx⟩
      · rintro i ctx ⟨a', b', rest', hs', -, -, hop', -⟩
        rw [hs] at hs'
        cases hs'
        exact hop hop'
      · exact enabledTxqs_eq_nil (by simpa using hcalls)
  · obtain ⟨h1, h2⟩ := resume_effect hr
    refine .inl ⟨?_, ?_, by rw [ha.client, h1], by rw [ha.client, h1]⟩
    · rintro i ctx ⟨a', b', rest', hs', -⟩
      rw [hs] at hs'
      cases hs'
    · rw [ha.log, List.drop_left, enabledTxqs_effect, h2]
      rfl

/-- What the code does next. -/
inductive Ran (d : Device) : Device → Prop
  | done (call : Call) (rest : List Call) (hs : d.calls = call :: rest) (hq : call = .atq → d.atq.stack = [])
      (hr : ∀ i, call = .rx i → (d.rxqs i).stack = []) (ht : ∀ i, call = .tx i → (d.txqs i).stack = [])
      (hu : ∀ idx, call ≠ .tailUpdated idx) : Ran d { d with calls := rest }
  | atq (env : Env AdminEnv) (cmd : Cmd Unit) (rest : List (Cmd Unit)) (c : Config AdminClient Unit)
      (hc : d.calls.head? = some .atq) (hs : d.atq.stack = cmd :: rest)
      (h : exec AdminQueue.subclass env { d.atq with stack := rest } cmd = .ok c) :
      Ran d ((enabledTxqs (c.log.drop d.atq.log.length)).foldl Device.txQenaUpdated (d.setAtq c))
  | rx (i : ℕ) (env : Env RxEnv) (cmd : Cmd RxPacket) (rest : List (Cmd RxPacket)) (c : Config RxClient RxPacket)
      (hc : d.calls.head? = some (.rx i)) (hs : (d.rxqs i).stack = cmd :: rest)
      (h : exec LanRx.subclass env { d.rxqs i with stack := rest } cmd = .ok c) : Ran d (d.setRx i c)
  | tx (i : ℕ) (env : Env TxEnv) (cmd : Cmd Unit) (rest : List (Cmd Unit)) (c : Config TxClient Unit)
      (hc : d.calls.head? = some (.tx i)) (hs : (d.txqs i).stack = cmd :: rest)
      (h : exec LanTx.subclass env { d.txqs i with stack := rest } cmd = .ok c) : Ran d (d.setTx i c)
  | tailUpdated (idx : ℕ) (rest : List Call) (hs : d.calls = .tailUpdated idx :: rest) :
      Ran d ({ d with calls := rest }.rxTailUpdated idx)

variable {d d' : Device}

theorem ran_of_run {env : DeviceEnv} {call : Call} {rest : List Call} (hs : d.calls = call :: rest)
    (h : Device.run env { d with calls := rest } call = .ok d') : Ran d d' := by
  have hc : d.calls.head? = some call := by
    rw [hs]
    rfl
  have hback : ({ d with calls := call :: rest } : Device) = d := by rw [← hs]
  unfold Device.run at h
  cases call with
  | atq =>
    dsimp only at h
    split at h
    · rename_i hst
      cases h
      exact .done .atq rest hs (fun _ => hst) (by simp) (by simp) (by simp)
    · rename_i cmd st hst
      obtain ⟨c, he, h⟩ := bind_ok h
      cases h
      have hset : (Device.setAtq { d with calls := rest } c).push [.atq] = d.setAtq c := by
        conv_rhs => rw [← hback]
        rfl
      rw [hset]
      exact .atq _ cmd st c hc hst he
  | rx i =>
    dsimp only at h
    split at h
    · rename_i hst
      cases h
      exact .done (.rx i) rest hs (by simp) (fun j hj => by cases hj; exact hst) (by simp) (by simp)
    · rename_i cmd st hst
      obtain ⟨c, he, h⟩ := bind_ok h
      cases h
      have hset : (Device.setRx { d with calls := rest } i c).push [.rx i] = d.setRx i c := by
        conv_rhs => rw [← hback]
        rfl
      rw [hset]
      exact .rx i _ cmd st c hc hst he
  | tx i =>
    dsimp only at h
    split at h
    · rename_i hst
      cases h
      exact .done (.tx i) rest hs (by simp) (by simp) (fun j hj => by cases hj; exact hst) (by simp)
    · rename_i cmd st hst
      obtain ⟨c, he, h⟩ := bind_ok h
      cases h
      have hset : (Device.setTx { d with calls := rest } i c).push [.tx i] = d.setTx i c := by
        conv_rhs => rw [← hback]
        rfl
      rw [hset]
      exact .tx i _ cmd st c hc hst he
  | tailUpdated idx =>
    dsimp only at h
    split at h
    · cases h
    · cases h
      exact .tailUpdated idx rest hs

section

variable {ε ι σ κ : Type} {S : Subclass ε ι σ κ} {env : Env ε} {c c' : Config σ κ} {cmd : Cmd κ}
  {rest : List (Cmd κ)} {calls calls' : List Call} {call : Call} {tail : ℕ}

/-- What a queue has left to do is listed in `calls`, and its tail is the register. -/
structure Kempt (calls : List Call) (call : Call) (tail : ℕ) (c : Config σ κ) : Prop where
  listed : c.stack ≠ [] → call ∈ calls
  live : Live c
  tail_eq : c.q.regTail = tail

theorem Kempt.mono (h : Kempt calls call tail c) (hm : ∀ x ∈ calls, x ∈ calls') : Kempt calls' call tail c :=
  { h with listed := fun hn => hm _ (h.listed hn) }

theorem Kempt.at_rest (h : Kempt calls call tail c) (hs : calls = []) : c.stack = [] := by
  by_contra hn
  have hm := h.listed hn
  rw [hs] at hm
  cases hm

theorem Kempt.exec (h : Kempt calls call tail c) (hm : call ∈ calls) (hs : c.stack = cmd :: rest)
    (he : exec S env { c with stack := rest } cmd = .ok c') : Kempt calls call tail c' := by
  have hl : c.q.enabled = true := h.live (by rw [hs]; simp)
  obtain ⟨h1, h2⟩ := exec_registers (c := { c with stack := rest }) hl he
  exact ⟨fun _ => hm, .of_enabled h1, h2.trans h.tail_eq⟩

theorem Kempt.regUpdated (h : Kempt calls call tail c) : Kempt (call :: calls) call tail (regUpdated c) := by
  refine ⟨fun _ => List.mem_cons_self, ?_, h.tail_eq⟩
  by_cases he : c.q.enabled = true
  · exact .of_enabled he
  · refine fun hn => h.live ?_
    simpa [Nic.regUpdated, he] using hn

theorem Kempt.of_nil (hs : c.stack = []) (ht : c.q.regTail = tail) : Kempt calls call tail c :=
  ⟨fun hn => absurd hs hn, .of_nil hs, ht⟩

end

structure Tidy (d : Device) : Prop where
  atq : Kempt d.calls .atq (d.regs.reg .pfAtqt) d.atq
  head : d.atq.q.regHead = d.regs.reg .pfAtqh
  mbx : d.mbx.regHead = d.regs.reg .pfMbxAtqh ∧ d.mbx.regTail = d.regs.reg .pfMbxAtqt
  rxqs : ∀ i, Kempt d.calls (.rx i) (d.regs.arr .qrxTail i) (d.rxqs i)
  txqs : ∀ i, Kempt d.calls (.tx i) (d.regs.arr .qtxCommDbell i) (d.txqs i)
  ena : ∀ i, (d.txqs i).q.enabled = true → d.atq.client.dev.qtxEna i % 2 = 1

theorem Tidy.setRx {i : ℕ} {c : Config RxClient RxPacket} (h : Tidy d)
    (hc : Kempt d.calls (.rx i) (d.regs.arr .qrxTail i) c) : Tidy (d.setRx i c) :=
  { h with
    rxqs := (Function.forall_update_iff _ fun j x => Kempt d.calls (.rx j) (d.regs.arr .qrxTail j) x).mpr
      ⟨hc, fun j _ => h.rxqs j⟩ }

theorem Tidy.setTx {i : ℕ} {c : Config TxClient Unit} (h : Tidy d)
    (hc : Kempt d.calls (.tx i) (d.regs.arr .qtxCommDbell i) c)
    (he : c.q.enabled = true → d.atq.client.dev.qtxEna i % 2 = 1) : Tidy (d.setTx i c) :=
  { h with
    txqs := (Function.forall_update_iff _ fun j x => Kempt d.calls (.tx j) (d.regs.arr .qtxCommDbell j) x).mpr
      ⟨hc, fun j _ => h.txqs j⟩
    ena := (Function.forall_update_iff _ fun j (x : Config TxClient Unit) => x.q.enabled = true →
      d.atq.client.dev.qtxEna j % 2 = 1).mpr ⟨he, fun j _ => h.ena j⟩ }

theorem Tidy.push (h : Tidy d) (calls : List Call) : Tidy (d.push calls) := by
  have hm : ∀ x ∈ d.calls, x ∈ (d.push calls).calls := fun x hx => List.mem_append_right _ hx
  exact ⟨h.atq.mono hm, h.head, h.mbx, fun i => (h.rxqs i).mono hm, fun i => (h.txqs i).mono hm, h.ena⟩

theorem Tidy.rxTailUpdated (h : Tidy d) (i : ℕ) : Tidy (d.rxTailUpdated i) := by
  unfold Device.rxTailUpdated
  split
  · exact (h.push [.rx i]).setRx (h.rxqs i).regUpdated
  · exact h

theorem Tidy.txTailUpdated (h : Tidy d) (i : ℕ) : Tidy (d.txTailUpdated i) := by
  unfold Device.txTailUpdated
  split
  · exact (h.push [.tx i]).setTx (h.txqs i).regUpdated (h.ena i)
  · exact h

theorem or_qenaStat {ena : ℕ} : (ena ||| qenaStat) % 2 = ena % 2 := by
  have h := @Nat.or_mod_two_pow ena qenaStat 1
  simpa [qenaStat] using h

theorem Tidy.setQtxEna {i val : ℕ} (h : Tidy d) (hv : val % 2 = d.atq.client.dev.qtxEna i % 2) :
    Tidy (d.setQtxEna i val) := by
  refine ⟨⟨h.atq.listed, h.atq.live, h.atq.tail_eq⟩, h.head, h.mbx, h.rxqs, h.txqs, fun j he => ?_⟩
  change Function.update d.atq.client.dev.qtxEna i val j % 2 = 1
  by_cases hj : j = i
  · subst hj
    rw [Function.update_self, hv]
    exact h.ena j he
  · rw [Function.update_of_ne hj]
    exact h.ena j he

theorem Tidy.txQenaUpdated_cases (h : Tidy d) (i : ℕ) :
    (((d.txqs i).q.enabled = true ∨ d.atq.client.dev.qtxEna i % 2 = 0) ∧ d.txQenaUpdated i = d) ∨
      (d.txqs i).q.enabled = false ∧ d.atq.client.dev.qtxEna i % 2 = 1 ∧
        d.txQenaUpdated i = ((d.setQtxEna i (d.atq.client.dev.qtxEna i ||| qenaStat)).setTx i
          (txEnable (d.atq.client.dev.ctxAddr i) (d.txqs i))).push [.tx i] := by
  unfold Device.txQenaUpdated
  dsimp only
  by_cases he : (d.txqs i).q.enabled = true
  · have hodd := h.ena i he
    refine .inl ⟨.inl he, ?_⟩
    rw [if_neg (by simp [he]), if_neg (by omega)]
  · rw [Bool.not_eq_true] at he
    by_cases hodd : d.atq.client.dev.qtxEna i % 2 = 1
    · exact .inr ⟨he, hodd, if_pos (by simp [he, hodd])⟩
    · refine .inl ⟨.inr (by omega), ?_⟩
      rw [if_neg (by simp [hodd]), if_neg (by simp [he])]

theorem Tidy.txQenaUpdated (h : Tidy d) (i : ℕ) : Tidy (d.txQenaUpdated i) := by
  rcases h.txQenaUpdated_cases i with ⟨-, hd⟩ | ⟨hn, hodd, hd⟩
  · rw [hd]
    exact h
  · rw [hd]
    have hs := (h.txqs i).live.stack_eq_nil hn
    refine ((h.setQtxEna or_qenaStat).push [.tx i]).setTx (Kempt.regUpdated (.of_nil hs (h.txqs i).tail_eq)) fun _ => ?_
    change Function.update d.atq.client.dev.qtxEna i _ i % 2 = 1
    rw [Function.update_self, or_qenaStat]
    exact hodd

theorem Tidy.setAtq {c : Config AdminClient Unit} (h : Tidy d) (hc : Kempt d.calls .atq (d.regs.reg .pfAtqt) c)
    (he : ∀ i, d.atq.client.dev.qtxEna i % 2 = 1 → c.client.dev.qtxEna i % 2 = 1) : Tidy (d.setAtq c) :=
  ⟨hc, rfl, h.mbx, h.rxqs, h.txqs, fun i hi => he i (h.ena i hi)⟩

theorem Tidy.done {call : Call} {rest : List Call} (h : Tidy d) (hs : d.calls = call :: rest)
    (hq : call = .atq → d.atq.stack = []) (hr : ∀ i, call = .rx i → (d.rxqs i).stack = [])
    (ht : ∀ i, call = .tx i → (d.txqs i).stack = []) : Tidy { d with calls := rest } := by
  have hm : ∀ x, x ∈ d.calls → x ≠ call → x ∈ rest := by
    intro x hx hne
    rw [hs] at hx
    exact (List.mem_cons.mp hx).resolve_left hne
  refine ⟨{ h.atq with listed := fun hn => hm _ (h.atq.listed hn) ?_ }, h.head, h.mbx,
    fun i => { h.rxqs i with listed := fun hn => hm _ ((h.rxqs i).listed hn) ?_ },
    fun i => { h.txqs i with listed := fun hn => hm _ ((h.txqs i).listed hn) ?_ }, h.ena⟩
  · rintro rfl
    exact hn (hq rfl)
  · rintro rfl
    exact hn (hr i rfl)
  · rintro rfl
    exact hn (ht i rfl)

theorem Tidy.execAtq {env : Env AdminEnv} {cmd : Cmd Unit} {rest : List (Cmd Unit)} {c : Config AdminClient Unit}
    (h : Tidy d) (hc : d.calls.head? = some .atq) (hs : d.atq.stack = cmd :: rest)
    (he : exec AdminQueue.subclass env { d.atq with stack := rest } cmd = .ok c) : Tidy (d.setAtq c) := by
  refine h.setAtq (h.atq.exec (List.mem_of_mem_head? hc) hs he) fun i hi => ?_
  rcases exec_txqs (h.atq.live (by rw [hs]; simp)) hs he with ⟨-, -, hq, -⟩ | ⟨j, ctx, -, -, -, hq, -⟩
  · rwa [hq]
  · rw [hq]
    by_cases hj : i = j
    · subst hj
      rw [Function.update_self]
      rfl
    · rwa [Function.update_of_ne hj]

theorem Tidy.ran (h : Tidy d) (hr : Ran d d') : Tidy d' := by
  cases hr with
  | done call rest hs hq hr ht hu => exact h.done hs hq hr ht
  | atq env cmd rest c hc hs he =>
    have hd := h.execAtq hc hs he
    rcases exec_txqs (h.atq.live (by rw [hs]; simp)) hs he with ⟨-, hn, -⟩ | ⟨i, ctx, -, -, hn, -⟩
    · rw [hn]
      exact hd
    · rw [hn]
      exact hd.txQenaUpdated i
  | rx i env cmd rest c hc hs he => exact h.setRx ((h.rxqs i).exec (List.mem_of_mem_head? hc) hs he)
  | tx i env cmd rest c hc hs he =>
    refine h.setTx ((h.txqs i).exec (List.mem_of_mem_head? hc) hs he) fun _ => h.ena i ((h.txqs i).live (by rw [hs]; simp))
  | tailUpdated idx rest hs =>
    have hd : Tidy { d with calls := rest } := h.done hs (by simp) (by simp) (by simp)
    exact hd.rxTailUpdated idx

theorem Tidy.setRegs (h : Tidy d) (regs : Regs) : Tidy (d.setRegs regs) :=
  ⟨⟨h.atq.listed, h.atq.live, rfl⟩, rfl, ⟨rfl, rfl⟩, fun i => ⟨(h.rxqs i).listed, (h.rxqs i).live, rfl⟩,
    fun i => ⟨(h.txqs i).listed, (h.txqs i).live, rfl⟩, h.ena⟩

theorem Tidy.storeEna (h : Tidy d) (i val : ℕ) : Tidy { d with regs := d.regs.store .qrxEna i val } :=
  ⟨h.atq, h.head, h.mbx, h.rxqs, h.txqs, h.ena⟩

theorem rxEnable_ok {ctx : List UInt8} {c c' : Config RxClient RxPacket} (h : rxEnable ctx c = .ok c') :
    c' = regUpdated { c with
      q := { c.q with regHead := rxHead ctx, base := rxBase ctx, len := rxLen ctx, descLen := 32, enabled := true }
      client := { c.client with
        dbuffSize := rxDbuffSize ctx, hbuffSize := rxHbuffSize ctx, rxmax := rxMax ctx, crcStrip := rxCrcStrip ctx } } := by
  unfold rxEnable at h
  split at h
  · cases h
  split at h
  · cases h
  · cases h
    rfl

theorem rxQenaUpdated_cases {i : ℕ} (h : d.rxQenaUpdated i = .ok d') :
    (d.regs.arr .qrxEna i % 2 = 1 ∧ (d.rxqs i).q.enabled = false ∧
      ∃ c val, rxEnable (rxContext d.regs i) (d.rxqs i) = .ok c ∧
        d' = (Device.setRx { d with regs := d.regs.store .qrxEna i val } i c).push
          [.rx i, .tailUpdated (tailIndex d.regs i)]) ∨
    (d.regs.arr .qrxEna i % 2 = 0 ∧ (d.rxqs i).q.enabled = true ∧
      ∃ val, d' = Device.setRx { d with regs := d.regs.store .qrxEna i val } i (disable (d.rxqs i))) ∨
    (d.regs.arr .qrxEna i % 2 = 1 ↔ (d.rxqs i).q.enabled = true) ∧ d' = d := by
  unfold Device.rxQenaUpdated at h
  dsimp only at h
  split at h
  · rename_i he
    obtain ⟨c, hc, h⟩ := bind_ok h
    cases h
    exact .inl ⟨he.1, by simpa using he.2, c, _, hc, rfl⟩
  split at h
  · rename_i he
    cases h
    exact .inr (.inl ⟨he.1, he.2, _, rfl⟩)
  · rename_i h1 h2
    cases h
    refine .inr (.inr ⟨?_, rfl⟩)
    cases hb : (d.rxqs i).q.enabled
    · simp [hb] at h1
      simp [h1]
    · simp [hb] at h2
      simp [h2]

theorem rxEnable_kempt {ctx : List UInt8} {c c' : Config RxClient RxPacket} {calls : List Call} {call : Call}
    {tail : ℕ} (h : rxEnable ctx c = .ok c') (hs : c.stack = []) (ht : c.q.regTail = tail) :
    Kempt (call :: calls) call tail c' := by
  rw [rxEnable_ok h]
  apply Kempt.regUpdated
  exact .of_nil hs ht

theorem Tidy.rxQenaUpdated {i : ℕ} (h : Tidy d) (hs : d.calls = []) (hd : d.rxQenaUpdated i = .ok d') : Tidy d' := by
  have hnil := (h.rxqs i).at_rest hs
  rcases rxQenaUpdated_cases hd with ⟨-, -, c, val, hc, rfl⟩ | ⟨-, -, val, rfl⟩ | ⟨-, rfl⟩
  · have hk : Kempt (.rx i :: .tailUpdated (tailIndex d.regs i) :: d.calls) (.rx i) (d.regs.arr .qrxTail i) c :=
      rxEnable_kempt hc hnil (h.rxqs i).tail_eq
    have hp := (h.storeEna i val).push [.rx i, .tailUpdated (tailIndex d.regs i)]
    exact hp.setRx hk
  · have hk : Kempt d.calls (.rx i) (d.regs.arr .qrxTail i) (disable (d.rxqs i)) := .of_nil hnil (h.rxqs i).tail_eq
    exact (h.storeEna i val).setRx hk
  · exact h

theorem Tidy.reset (h : Tidy d) (hs : d.calls = []) : Tidy d.reset := by
  refine ⟨.of_nil (h.atq.at_rest hs) rfl, rfl, ⟨rfl, rfl⟩, fun i => .of_nil ((h.rxqs i).at_rest hs) rfl,
    fun i => .of_nil ((h.txqs i).at_rest hs) rfl, fun i he => ?_⟩
  cases he

theorem Tidy.atqRegUpdated (h : Tidy d) (hs : d.calls = []) :
    Tidy (Device.push { d with atq := Nic.atqRegUpdated d.regs d.atq } [.atq]) := by
  have hnil := h.atq.at_rest hs
  have hk : Kempt (.atq :: d.calls) .atq (d.regs.reg .pfAtqt) (Nic.atqRegUpdated d.regs d.atq) :=
    Kempt.regUpdated (.of_nil hnil h.atq.tail_eq)
  have hp := h.push [.atq]
  exact ⟨hk, h.head, h.mbx, hp.rxqs, hp.txqs, h.ena⟩

def Notify.isQueue : Notify → Bool
  | .tailUpdated _ _ | .qenaUpdated _ _ | .atqRegUpdated | .reset => true
  | _ => false

theorem notify_silent {n : Notify} (h : Notify.isQueue n = false) (d : Device) : d.notify n = .ok d := by
  cases n <;> first | rfl | cases h

theorem Tidy.notify {n : Notify} (h : Tidy d) (hs : d.calls = []) (hn : d.notify n = .ok d') : Tidy d' := by
  cases n with
  | tailUpdated i rx =>
    cases rx
    · exact Except.ok.inj hn ▸ h.txTailUpdated i
    · exact Except.ok.inj hn ▸ h.rxTailUpdated i
  | qenaUpdated i rx =>
    cases rx
    · exact Except.ok.inj hn ▸ h.txQenaUpdated i
    · exact h.rxQenaUpdated hs hn
  | atqRegUpdated => exact Except.ok.inj hn ▸ h.atqRegUpdated hs
  | reset => exact Except.ok.inj hn ▸ h.reset hs
  | _ =>
    rw [notify_silent rfl] at hn
    exact Except.ok.inj hn ▸ h

theorem regMemWrite32_notes {ptp : PtpClock} {en : ℕ → Bool} {regs : Regs} {addr val : ℕ} {r : Regs × List Notify}
    (h : regMemWrite32 ptp en regs addr val = .ok r) : r.2.length ≤ 1 ∨ ∀ n ∈ r.2, Notify.isQueue n = false := by
  unfold regMemWrite32 at h
  split at h
  · cases h
    split
    · rename_i x hx
      left
      cases x.target <;> simp [WriteAction.run]
    split
    · rename_i x st calls hx
      have hall : ∀ e ∈ writeSwitch, e.2.2.length ≤ 1 := by decide
      obtain ⟨before, after, hl, -⟩ := List.lookup_eq_some_iff.mp hx
      exact .inl (hall (addr, st, calls) (by rw [hl]; simp))
    split
    · left
      split <;> simp
    split
    · left
      split <;> simp
    split
    · left
      simp
    split
    · right
      unfold cmdSync
      split
      · simp [Notify.isQueue]
      split
      · simp [Notify.isQueue]
      · simp
    split
    · left
      simp
    · left
      simp
  · cases h

theorem regMemWrite32_switch (ptp : PtpClock) (en : ℕ → Bool) (regs : Regs) {addr : ℕ} (val : ℕ) {st : RegStore}
    {calls : List Notify} (h1 : AddressMap.lookup (writeRanges ++ writeCases) addr = none)
    (h2 : writeSwitch.lookup addr = some (st, calls)) (h3 : addr ≠ gltsynCmdSync) (h4 : enaCases.lookup addr = none) :
    regMemWrite32 ptp en regs addr val = .ok (st.apply regs val, calls) := by
  have ha : writeAccesses regs en addr val = [] := by
    unfold writeAccesses
    rw [h1]
    dsimp only
    rw [if_neg h3, h4]
    rfl
  unfold regMemWrite32
  rw [ha, if_pos (by simp), h1, h2]

theorem foldlM_silent {notes : List Notify} (h : ∀ n ∈ notes, Notify.isQueue n = false) (d : Device) :
    notes.foldlM Device.notify d = .ok d := by
  induction notes with
  | nil => rfl
  | cons n notes ih =>
    rw [List.foldlM_cons, notify_silent (h n List.mem_cons_self)]
    exact ih fun x hx => h x (List.mem_cons_of_mem _ hx)

theorem regWrite_cases {env : DeviceEnv} {addr val : ℕ} (h : d.regWrite env addr val = .ok d') :
    ∃ r, regMemWrite32 env.ptp (fun i => (d.rxqs i).q.enabled) d.regs addr val = .ok r ∧
      (((∀ n ∈ r.2, Notify.isQueue n = false) ∧ d' = d.setRegs r.1) ∨
        ∃ n, r.2 = [n] ∧ (d.setRegs r.1).notify n = .ok d') := by
  obtain ⟨r, hr, h⟩ := bind_ok h
  refine ⟨r, hr, ?_⟩
  rcases regMemWrite32_notes hr with hlen | hq
  · match hn : r.2 with
    | [] =>
      rw [hn] at h
      cases h
      exact .inl ⟨by simp, rfl⟩
    | [n] =>
      rw [hn, List.foldlM_cons] at h
      obtain ⟨x, hx, h⟩ := bind_ok h
      cases h
      exact .inr ⟨n, rfl, hx⟩
    | _ :: _ :: _ =>
      rw [hn] at hlen
      simp at hlen
  · rw [foldlM_silent hq] at h
    cases h
    exact .inl ⟨hq, rfl⟩

theorem Tidy.packetReceived {env : DeviceEnv} {hint : Option ℕ} {data : List UInt8} (h : Tidy d)
    (hp : d.packetReceived env hint data = .ok d') : Tidy d' := by
  unfold Device.packetReceived at hp
  dsimp only at hp
  split at hp
  · cases hp
  split at hp
  · cases hp
    exact h
  · rename_i he
    obtain ⟨c, hc, hp⟩ := bind_ok hp
    cases hp
    obtain ⟨k, rfl⟩ := receive_ok hc
    refine (h.push [.rx _]).setRx ⟨fun _ => List.mem_cons_self, .of_enabled (by simpa using he), ?_⟩
    exact (h.rxqs _).tail_eq

theorem Tidy.step {x : Input} (h : Tidy d) (hs : Step d x d') : Tidy d' := by
  cases hs with
  | run env call rest hs hr => exact h.ran (ran_of_run hs hr)
  | write env addr val hv hs hw =>
    obtain ⟨r, -, ⟨-, rfl⟩ | ⟨n, -, hn⟩⟩ := regWrite_cases hw
    · exact h.setRegs r.1
    · exact (h.setRegs r.1).notify hs hn
  | packet env hint data hs hp => exact h.packetReceived hp

theorem Tidy.fresh (h : Fresh d) : Tidy d := by
  have hw := h.wired
  have hr := h.regs
  have hatq := congrArg (fun x => (x.atq.q.regHead, x.atq.q.regTail, x.mbx.regHead, x.mbx.regTail)) hw
  have hrx := fun i => congrArg (fun x => (x.rxqs i).q.regTail) hw
  have htx := fun i => congrArg (fun x => (x.txqs i).q.regTail) hw
  simp only [Prod.mk.injEq] at hatq
  obtain ⟨h1, h2, h3, h4⟩ := hatq
  refine ⟨.of_nil h.atq.stack ?_, ?_, ⟨?_, ?_⟩, fun i => .of_nil (h.rxqs i).stack ?_,
    fun i => .of_nil (h.txqs i).stack ?_, fun i he => ?_⟩
  · rw [hr]
    exact h2.symm
  · rw [hr]
    exact h1.symm
  · rw [hr]
    exact h3.symm
  · rw [hr]
    exact h4.symm
  · rw [hr]
    exact (hrx i).symm
  · rw [hr]
    exact (htx i).symm
  · rw [(h.txqs i).disabled] at he
    cases he

theorem Tidy.reachable (h : device.Reachable d) : Tidy d := by
  induction h with
  | start h => exact .fresh h
  | step _ h ih =>
    obtain ⟨x, hx⟩ := h
    exact ih.step hx

end Vmux.Nic
