import Vmux.AdminQueue
import Vmux.QueueRuns

namespace Vmux.SwitchIsolation

open Bytes CircularWindow Transitions DescriptorQueue Switch AdminQueue

abbrev AdminConfig := Config AdminClient Unit

def opcodeAddSwRules : ℕ := 0x02A0

/-- The hardware queues of the virtual machine `v`. -/
def Own (v queue : ℕ) : Prop := v * maxQueuesPerVm ≤ queue ∧ queue < v * maxQueuesPerVm + maxQueuesPerVm

instance (v queue : ℕ) : Decidable (Own v queue) := inferInstanceAs (Decidable (_ ∧ _))

def Isolated (v : ℕ) (c : AdminConfig) : Prop :=
  ∀ etype dst, .addSwitchRule etype dst ∈ calls c.log → ∀ created flow,
    addSwitchRule true v created etype dst = some flow → Own v flow.queueId

/-- The queue index of a rule is one of the first `maxQueuesPerVm` of the VSI. -/
def InVsi (v vsi0FirstQueue : ℕ) (r : RuleElem) : Prop :=
  vsi0FirstQueue ≤ r.queueId ∧ r.queueId < vsi0FirstQueue + maxQueuesPerVm ∧
    v * maxQueuesPerVm + (r.queueId - vsi0FirstQueue) < 0x10000

/-- The next step processes a command that adds this rule, and the switch supports it. -/
def Adds (c : AdminConfig) (r : RuleElem) : Prop :=
  ∃ i j rest, c.stack = .processLoop i j :: rest ∧ i + j < c.q.activeCnt ∧
    c.q.stateAt (c.q.activeFirstPos + (i + j)) = .prepared ∧
    opcode (c.q.ctx (c.q.activeFirstPos + (i + j))).desc = opcodeAddSwRules ∧
    r = ruleElem (c.q.ctx (c.q.activeFirstPos + (i + j))).data ∧ r.Supported

def GoodRule (v : ℕ) (c : AdminConfig) : Prop := ∀ r, Adds c r → InVsi v c.client.dev.vsi0FirstQueue r

/-- An admin queue enabled once; a reset keeps `vsi0_first_queue`, which is 0 or 1. -/
def adminMachine (base len : ℕ) : Machine AdminConfig where
  start c := Enabled AdminQueue.subclass base len c ∧ c.client.dev.vsi0FirstQueue ≤ 1
  step := QueueStep AdminQueue.subclass

theorem reachable_machine {base len : ℕ} {c : AdminConfig} (h : (adminMachine base len).Reachable c) :
    (machine AdminQueue.subclass base len).Reachable c := by
  induction h with
  | start h => exact .start h.1
  | step _ h ih => exact .step ih h

theorem queueId_lt (r : RuleElem) : r.queueId < 0x800 := Nat.mod_lt _ (by norm_num)

theorem getRxQueueId_own {v vsi0 : ℕ} (r : RuleElem) (hv : vsi0 ≤ 1) :
    Own v (getRxQueueId v (r.dstQueue vsi0)) ↔ InVsi v vsi0 r := by
  have hq := queueId_lt r
  unfold Own getRxQueueId RuleElem.dstQueue InVsi maxQueuesPerVm
  by_cases h : vsi0 ≤ r.queueId
  · have hd : (r.queueId + 0x10000000000000000 - vsi0) % 0x10000000000000000 % 0x10000 = r.queueId - vsi0 := by
      omega
    rw [hd]
    omega
  · have hd : (r.queueId + 0x10000000000000000 - vsi0) % 0x10000000000000000 % 0x10000 = 0xFFFF := by
      omega
    rw [hd]
    omega

theorem addSwitchRule_own {v etype dst : ℕ} :
    (∀ created flow, addSwitchRule true v created etype dst = some flow → Own v flow.queueId) ↔
      Own v (getRxQueueId v dst) := by
  constructor
  · intro h
    exact h true _ rfl
  · rintro h created flow hf
    cases created
    · cases hf
    · cases hf
      exact h

/-- What a command does to the switch: only `add_sw_rules` calls the driver. -/
structure SwitchEffect (dev : AdminDev) (desc data : List UInt8) (h : Handled) : Prop where
  vsi : h.dev.vsi0FirstQueue = dev.vsi0FirstQueue ∨ h.dev.vsi0FirstQueue = 1
  calls : ∀ etype dst, .addSwitchRule etype dst ∈ h.calls ↔
    opcode desc = opcodeAddSwRules ∧ (ruleElem data).Supported ∧ etype = (ruleElem data).etype ∧
      dst = (ruleElem data).dstQueue dev.vsi0FirstQueue

theorem replyData_ok {desc data : List UInt8} {dev : AdminDev} {calls : List Output} {h : Handled}
    (hh : replyData desc data dev calls = .ok h) : h.dev = dev ∧ h.calls = calls := by
  obtain ⟨_, -, hh⟩ := bind_ok hh
  cases hh
  exact ⟨rfl, rfl⟩

theorem addSchedElems_vsi {p : Slot} {n i : ℕ} {data : List UInt8} {dev : AdminDev} {r : List UInt8 × AdminDev}
    (h : addSchedElems p n i data dev = .ok r) : r.2.vsi0FirstQueue = dev.vsi0FirstQueue := by
  induction n generalizing i data dev with
  | zero =>
    cases h
    rfl
  | succ n ih =>
    obtain ⟨_, -, h⟩ := bind_ok h
    rw [ih h]

theorem addSwRules_effect {dev : AdminDev} {desc data : List UInt8} {h : Handled}
    (hd : opcode desc = opcodeAddSwRules) (hh : addSwRules dev desc data = .ok h) :
    SwitchEffect dev desc data h := by
  obtain ⟨_, -, hh⟩ := bind_ok hh
  by_cases hs : (ruleElem data).Supported
  · rw [if_pos hs] at hh
    obtain ⟨h1, h2⟩ := replyData_ok hh
    refine ⟨.inl (by rw [h1]), fun etype dst => ?_⟩
    rw [h2, List.mem_singleton, Output.addSwitchRule.injEq]
    exact ⟨fun he => ⟨hd, hs, he⟩, fun he => he.2.2⟩
  · rw [if_neg hs] at hh
    obtain ⟨h1, h2⟩ := replyData_ok hh
    refine ⟨.inl (by rw [h1]), fun etype dst => ?_⟩
    rw [h2]
    exact ⟨fun he => absurd he List.not_mem_nil, fun he => absurd he.2.1 hs⟩

theorem SwitchEffect.quiet {dev : AdminDev} {desc data : List UInt8} {h : Handled}
    (hd : opcode desc ≠ opcodeAddSwRules) (hc : ∀ etype dst, Output.addSwitchRule etype dst ∉ h.calls)
    (hv : h.dev.vsi0FirstQueue = dev.vsi0FirstQueue ∨ h.dev.vsi0FirstQueue = 1) :
    SwitchEffect dev desc data h :=
  ⟨hv, fun etype dst => ⟨fun he => absurd he (hc etype dst), fun he => absurd he.1 hd⟩⟩

theorem SwitchEffect.ok {dev : AdminDev} {desc data : List UInt8} {h h' : Handled}
    (hd : opcode desc ≠ opcodeAddSwRules) (hh : (Except.ok h' : Except Fault Handled) = .ok h)
    (hc : h'.calls = []) (hv : h'.dev.vsi0FirstQueue = dev.vsi0FirstQueue) : SwitchEffect dev desc data h := by
  cases hh
  exact .quiet hd (by simp [hc]) (.inl hv)

theorem SwitchEffect.replyData {dev dev' : AdminDev} {desc data desc' data' : List UInt8} {h : Handled}
    (hd : opcode desc ≠ opcodeAddSwRules) (hh : replyData desc' data' dev' [] = .ok h)
    (hv : dev'.vsi0FirstQueue = dev.vsi0FirstQueue ∨ dev'.vsi0FirstQueue = 1) : SwitchEffect dev desc data h := by
  obtain ⟨h1, h2⟩ := replyData_ok hh
  rw [← h1] at hv
  exact .quiet hd (by simp [h2]) hv

theorem handle_addSwRules {env : AdminEnv} {dev : AdminDev} {ctxs : Slot → DescCtx} {p : Slot}
    (hd : opcode (ctxs p).desc = opcodeAddSwRules) :
    handle env dev ctxs p = addSwRules dev (ctxs p).desc (ctxs p).data := by
  unfold handle
  simp only [hd, opcodeAddSwRules]

theorem handle_quiet {env : AdminEnv} {dev : AdminDev} {ctxs : Slot → DescCtx} {p : Slot} {h : Handled}
    (hd : opcode (ctxs p).desc ≠ opcodeAddSwRules) (hh : handle env dev ctxs p = .ok h) :
    SwitchEffect dev (ctxs p).desc (ctxs p).data h := by
  unfold handle at hh
  dsimp only at hh
  split at hh
  all_goals with_reducible first
    | exact .ok hd hh rfl rfl
    | exact .replyData hd hh (.inl rfl)
    | skip
  · split at hh
    · exact .ok hd hh rfl rfl
    · exact .ok hd hh rfl rfl
  · split at hh
    · exact .ok hd hh rfl rfl
    · exact .ok hd hh rfl rfl
  · refine .replyData hd hh ?_
    split
    · exact .inr rfl
    · exact .inl rfl
  · obtain ⟨_, -, hh⟩ := bind_ok hh
    obtain ⟨_, -, hh⟩ := bind_ok hh
    exact .replyData hd hh (.inl rfl)
  · obtain ⟨_, -, hh⟩ := bind_ok hh
    exact .ok hd hh rfl rfl
  · obtain ⟨_, -, hh⟩ := bind_ok hh
    obtain ⟨_, -, hh⟩ := bind_ok hh
    exact .ok hd hh rfl rfl
  · obtain ⟨_, -, hh⟩ := bind_ok hh
    obtain ⟨_, -, hh⟩ := bind_ok hh
    obtain ⟨_, -, hh⟩ := bind_ok hh
    exact .ok hd hh rfl rfl
  · obtain ⟨_, -, hh⟩ := bind_ok hh
    obtain ⟨r, hr, hh⟩ := bind_ok hh
    exact .replyData hd hh (.inl (addSchedElems_vsi hr))
  · obtain ⟨_, -, hh⟩ := bind_ok hh
    split at hh
    · cases hh
    · cases hh
      exact .quiet hd (by simp) (.inl rfl)
  · obtain ⟨_, -, hh⟩ := bind_ok hh
    exact .replyData hd hh (.inl rfl)
  · exact absurd ‹_› hd

theorem handle_effect {env : AdminEnv} {dev : AdminDev} {ctxs : Slot → DescCtx} {p : Slot} {h : Handled}
    (hh : handle env dev ctxs p = .ok h) : SwitchEffect dev (ctxs p).desc (ctxs p).data h := by
  by_cases hd : opcode (ctxs p).desc = opcodeAddSwRules
  · rw [handle_addSwRules hd] at hh
    exact addSwRules_effect hd hh
  · exact handle_quiet hd hh

theorem complete_ok {s : AdminClient} {p : Slot} {h : Handled} {e : Effect AdminClient Unit}
    (he : complete s p h = .ok e) : e.client.dev = s.dev ∧ e.calls = h.calls := by
  unfold complete at he
  split at he
  · cases he
    exact ⟨rfl, rfl⟩
  · cases he
    exact ⟨rfl, rfl⟩
  · split at he
    · cases he
    · cases he
      exact ⟨rfl, rfl⟩

theorem process_effect {env : AdminEnv} {s : AdminClient} {ctxs : Slot → DescCtx} {p : Slot}
    {e : Effect AdminClient Unit} (he : process env s ctxs p = .ok e) :
    (e.client.dev.vsi0FirstQueue = s.dev.vsi0FirstQueue ∨ e.client.dev.vsi0FirstQueue = 1) ∧
      ∀ etype dst, .addSwitchRule etype dst ∈ e.calls ↔
        opcode (ctxs p).desc = opcodeAddSwRules ∧ (ruleElem (ctxs p).data).Supported ∧
          etype = (ruleElem (ctxs p).data).etype ∧
          dst = (ruleElem (ctxs p).data).dstQueue s.dev.vsi0FirstQueue := by
  obtain ⟨h, hh, he⟩ := bind_ok he
  obtain ⟨h1, h2⟩ := complete_ok he
  have hs := handle_effect hh
  rw [h1, h2]
  exact ⟨hs.vsi, hs.calls⟩

theorem resume_effect {s : AdminClient} {ctxs : Slot → DescCtx} {e : Effect AdminClient Unit}
    (he : AdminQueue.resume s ctxs = .ok e) : e.client.dev = s.dev ∧ e.calls = [] := by
  unfold AdminQueue.resume at he
  split at he
  · cases he
  · obtain ⟨h, hh, he⟩ := bind_ok he
    obtain ⟨h1, h2⟩ := complete_ok he
    exact ⟨h1, h2.trans (replyData_ok hh).2⟩

theorem setState_desc (q : QueueBase) (p r : Slot) (s : DescState) :
    ((q.setState p s).ctxs r).desc = (q.ctxs r).desc ∧ ((q.setState p s).ctxs r).data = (q.ctxs r).data := by
  unfold QueueBase.setState QueueBase.modify
  by_cases h : r = p
  · subst h
    simp
  · simp [h]

theorem step_switch {c c' : AdminConfig} (he : c.q.enabled = true) (h : QueueStep AdminQueue.subclass c c') :
    (c'.client.dev.vsi0FirstQueue = c.client.dev.vsi0FirstQueue ∨ c'.client.dev.vsi0FirstQueue = 1) ∧
      ∀ etype dst, .addSwitchRule etype dst ∈ calls c'.log ↔ .addSwitchRule etype dst ∈ calls c.log ∨
        ∃ r, Adds c r ∧ etype = r.etype ∧ dst = r.dstQueue c.client.dev.vsi0FirstQueue := by
  cases h with
  | tail t ht hs h =>
    subst h
    refine ⟨.inl rfl, fun etype dst => ⟨.inl, ?_⟩⟩
    rintro (h | ⟨r, ⟨i, j, rest, hr, -⟩, -⟩)
    · exact h
    · rw [hs] at hr
      cases hr
  | receive env x hs h => exact x.elim
  | exec env cmd rest hs h =>
    rcases exec_calls (c := { c with stack := rest }) he h with
      ⟨h1, h2, hn⟩ | ⟨i, j, p, e, rfl, hp, hlt, hst, hpr, h1, h2⟩ | ⟨k, e, rfl, hr, h1, h2⟩
    · refine ⟨.inl (by rw [h1]), fun etype dst => ?_⟩
      rw [h2]
      refine ⟨.inl, ?_⟩
      rintro (h | ⟨r, ⟨i, j, rest', hr, hlt, hst, -⟩, -⟩)
      · exact h
      · rw [hs] at hr
        cases hr
        exact absurd ⟨hlt, hst⟩ (hn i j rfl)
    · obtain ⟨hv, hc⟩ := process_effect hpr
      obtain ⟨hd, hx⟩ := setState_desc c.q p p .processing
      rw [hd, hx, hp] at hc
      rw [h1]
      refine ⟨hv, fun etype dst => ?_⟩
      rw [h2, List.mem_append, hc]
      refine or_congr_right ⟨?_, ?_⟩
      · rintro ⟨h3, h4, h5, h6⟩
        exact ⟨_, ⟨i, j, rest, hs, hlt, hst, h3, rfl, h4⟩, h5, h6⟩
      · rintro ⟨r, ⟨i', j', rest', hr, -, -, h3, rfl, h5⟩, h6, h7⟩
        rw [hs] at hr
        cases hr
        exact ⟨h3, h5, h6, h7⟩
    · obtain ⟨h3, h4⟩ := resume_effect hr
      refine ⟨.inl (by rw [h1, h3]), fun etype dst => ?_⟩
      rw [h2, h4, List.append_nil]
      refine ⟨.inl, ?_⟩
      rintro (h | ⟨r, ⟨i, j, rest', hr, -⟩, -⟩)
      · exact h
      · rw [hs] at hr
        cases hr

theorem vsi0FirstQueue_le {base len : ℕ} {c : AdminConfig} (h : (adminMachine base len).Reachable c) :
    c.client.dev.vsi0FirstQueue ≤ 1 := by
  induction h with
  | start h => exact h.2
  | step hr h ih =>
    have he := (Inv.reachable (reachable_machine hr)).enabled
    rcases (step_switch he h).1 with hv | hv <;> omega

theorem step_isolated_iff {base len v : ℕ} {c c' : AdminConfig} (hr : (adminMachine base len).Reachable c)
    (h : (adminMachine base len).step c c') : Isolated v c' ↔ Isolated v c ∧ GoodRule v c := by
  have he := (Inv.reachable (reachable_machine hr)).enabled
  have hv := vsi0FirstQueue_le hr
  have hs := (step_switch he h).2
  unfold Isolated GoodRule
  constructor
  · intro hi
    refine ⟨fun etype dst hm => hi etype dst ((hs etype dst).mpr (.inl hm)), fun r hr => ?_⟩
    rw [← getRxQueueId_own r hv, ← addSwitchRule_own]
    exact hi r.etype _ ((hs _ _).mpr (.inr ⟨r, hr, rfl, rfl⟩))
  · rintro ⟨hi, hg⟩ etype dst hm
    rcases (hs etype dst).mp hm with hm | ⟨r, hr, rfl, rfl⟩
    · exact hi etype dst hm
    · rw [addSwitchRule_own, getRxQueueId_own r hv]
      exact hg r hr

theorem start_isolated {base len v : ℕ} {c : AdminConfig} (h : (adminMachine base len).start c) : Isolated v c := by
  intro etype dst hm
  rw [h.1.log] at hm
  cases hm

theorem switch_rules_isolated (base len v : ℕ) :
    (∀ c, ((adminMachine base len).restrict fun c _ => GoodRule v c).Reachable c → Isolated v c) ∧
      ∀ c c', (adminMachine base len).Reachable c → (adminMachine base len).step c c' →
        (Isolated v c' ↔ Isolated v c ∧ GoodRule v c) := by
  refine ⟨fun c h => ?_, fun c c' hr h => step_isolated_iff hr h⟩
  induction h with
  | start h => exact start_isolated h
  | step hr h ih => exact (step_isolated_iff hr.of_restrict h.1).mpr ⟨ih, h.2⟩

/-- A state that is isolated was reached by good steps only: the driver keeps every rule. -/
theorem good_run_of_isolated {base len v : ℕ} {c : AdminConfig} (hr : (adminMachine base len).Reachable c)
    (hi : Isolated v c) : ((adminMachine base len).restrict fun c _ => GoodRule v c).Reachable c := by
  induction hr with
  | start h => exact .start h
  | step hr h ih =>
    obtain ⟨hi, hg⟩ := (step_isolated_iff hr h).mp hi
    exact .step (ih hi) ⟨h, hg⟩

/-- Guest memory with one `add_sw_rules` command that forwards an ethertype to `queue`. -/
def ruleMem (queue : ℕ) : ℕ → UInt8
  -- the descriptor: flags RD and BUF, opcode, length and address of the rule
  | 0x1001 => 0x14 | 0x1002 => 0xA0 | 0x1003 => 0x02 | 0x1004 => 72 | 0x101D => 0x20
  -- the rule: action and queue index, header length, ethertype 0x0800
  | 0x2008 => UInt8.ofNat (1 + queue * 16) | 0x2009 => UInt8.ofNat (queue / 16) | 0x200E => 56 | 0x201C => 0x08
  | _ => 0

def ruleEnv (queue : ℕ) : Env AdminEnv := ⟨ruleMem queue, fun _ _ => true, ⟨0, fun _ => 0⟩⟩

def freshDev : AdminDev where
  gllanRctl0 := 0
  vsi0FirstQueue := 0
  lastReturnedNode := staticNodes + 1
  schedNodes _ := none
  topoElem := List.replicate 224 0
  rules := []
  ctxAddr _ := List.replicate 22 0
  qtxEna _ := 0

def freshAdmin : AdminConfig := Config.enabled 0x1000 4 32 ⟨freshDev, []⟩

theorem freshAdmin_reachable : (adminMachine 0x1000 4).Reachable freshAdmin :=
  .start ⟨⟨rfl, rfl, rfl, by norm_num, by norm_num, rfl, rfl, rfl, fun _ => rfl, rfl, rfl, rfl⟩, by decide⟩

theorem ruleEnv_run (queue : ℕ) (calls' : List Output)
    (h : (tailWrites AdminQueue.subclass (ruleEnv queue) 40 [1] freshAdmin).toOption.map (fun c => calls c.log) =
      some calls') : ∃ c, (adminMachine 0x1000 4).Reachable c ∧ calls c.log = calls' :=
  Reachable.observe (fun _ _ h => h) freshAdmin_reachable (by simp) h

theorem own_queue_rule :
    ∃ c, ((adminMachine 0x1000 4).restrict fun c _ => GoodRule 0 c).Reachable c ∧
      .addSwitchRule 0x0800 3 ∈ calls c.log ∧ Isolated 0 c := by
  obtain ⟨c, hc, hl⟩ := ruleEnv_run 3 [.addSwitchRule 0x0800 3] (by decide +kernel)
  have hi : Isolated 0 c := by
    intro etype dst hm
    rw [hl, List.mem_singleton, Output.addSwitchRule.injEq] at hm
    obtain ⟨rfl, rfl⟩ := hm
    rw [addSwitchRule_own]
    decide
  have hg := good_run_of_isolated hc hi
  exact ⟨c, hg, by simp [hl], (switch_rules_isolated 0x1000 4 0).1 c hg⟩

theorem foreign_queue_rule :
    ∃ c, (adminMachine 0x1000 4).Reachable c ∧ .addSwitchRule 0x0800 5 ∈ calls c.log ∧
      addSwitchRule true 0 true 0x0800 5 = some ⟨0x0800, 5⟩ ∧ ¬Own 0 5 ∧ Own 1 5 ∧ ¬Isolated 0 c := by
  obtain ⟨c, hc, hl⟩ := ruleEnv_run 5 [.addSwitchRule 0x0800 5] (by decide +kernel)
  have hm : .addSwitchRule 0x0800 5 ∈ calls c.log := by simp [hl]
  have h0 : ¬Own 0 5 := by simp [Own, maxQueuesPerVm]
  refine ⟨c, hc, hm, rfl, h0, by simp [Own, maxQueuesPerVm], fun hi => h0 ?_⟩
  exact hi 0x0800 5 hm true ⟨0x0800, 5⟩ rfl

end Vmux.SwitchIsolation
