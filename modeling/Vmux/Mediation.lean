import Vmux.SwitchRules

namespace Vmux.Mediation

open Bytes Transitions DescriptorQueue Switch AdminQueue SwitchIsolation SwitchRules

def opcodeSetRssLut : ℕ := 0x0B03

/-- The flow tables of the NIC: a rule for MAC and ethertype beats the default rule of the MAC, and of the
rules with equal match the first one wins. -/
structure Nic where
  pick : ℕ → List FlowRule → ℕ → ℕ
  first : ∀ {vm flows etype f}, flows.find? (·.etype = etype) = some f → pick vm flows etype = f.queueId
  default : ∀ {vm flows etype}, flows.find? (·.etype = etype) = none → pick vm flows etype = getRxQueueId vm 0

/-- The loop of `Dpdk::recv` over the queues of a VM, which finds the frame in one of them. -/
def recv (vm hwQueue : ℕ) : Option ℕ := (List.range maxQueuesPerVm).find? fun q => getRxQueueId vm q = hwQueue

/-- One VM under the same commands, emulated and mediated, with the flows installed for it. -/
structure Twin where
  emulated : AdminDev
  mediated : AdminDev
  flows : List FlowRule

/-- The flows that the calls of a command install; `generate_eth_flow` succeeds. -/
def installed (vm : ℕ) (calls : List Output) : List FlowRule :=
  calls.filterMap fun
    | .addSwitchRule etype dst => addSwitchRule true vm true etype dst
    | _ => none

def mediatedQueue (nic : Nic) (vm : ℕ) (s : Twin) (data : List UInt8) : Option ℕ :=
  (recv vm (nic.pick vm s.flows (frameEtype data))).map fun q => packetQueue s.mediated (some q) data

def Agree (nic : Nic) (vm : ℕ) (s : Twin) : Prop :=
  ∀ data, recipe1.length ≤ data.length → mediatedQueue nic vm s data = some (packetQueue s.emulated none data)

/-- The command in a context: a rule for one of the queues of the VSI, or `set_rss_lut`. -/
def Allowed (vsi0FirstQueue : ℕ) (x : DescCtx) : Prop :=
  (opcode x.desc = opcodeAddSwRules ∧ ((ruleElem x.data).Supported →
      vsi0FirstQueue ≤ (ruleElem x.data).queueId ∧ (ruleElem x.data).queueId < vsi0FirstQueue + maxQueuesPerVm)) ∨
    opcode x.desc = opcodeSetRssLut

def TwinStep (vm : ℕ) (s t : Twin) : Prop :=
  ∃ env ctxs p he hm, Allowed s.mediated.vsi0FirstQueue (ctxs p) ∧ handle env s.emulated ctxs p = .ok he ∧
    handle env s.mediated ctxs p = .ok hm ∧ t = ⟨he.dev, hm.dev, s.flows ++ installed vm hm.calls⟩

def twinMachine (vm : ℕ) : Machine Twin where
  start s := s.emulated = s.mediated ∧ s.emulated.rules = [] ∧ s.emulated.vsi0FirstQueue ≤ 1 ∧ s.flows = []
  step := TwinStep vm

/-- The first queue of the VSI does not move once there are rules. -/
def KeepsOffset (s t : Twin) : Prop :=
  s.mediated.rules = [] ∨ t.mediated.vsi0FirstQueue = s.mediated.vsi0FirstQueue

theorem recv_getRxQueueId (vm : ℕ) {q : ℕ} (hq : q < maxQueuesPerVm) : recv vm (getRxQueueId vm q) = some q := by
  unfold recv
  rw [List.find?_range_eq_some]
  refine ⟨by simp, List.mem_range.mpr hq, ?_⟩
  intro j hj
  have hne : getRxQueueId vm j ≠ getRxQueueId vm q := by
    simp only [getRxQueueId, maxQueuesPerVm] at *
    omega
  simpa using hne

/-- Rules and flows were made together, for the same ethertypes. -/
structure Linked (s : Twin) (added : List RuleElem) : Prop where
  twin : s.emulated = s.mediated
  vsi : s.mediated.vsi0FirstQueue ≤ 1
  rules : s.mediated.rules = added.map ruleOf
  flows : s.flows.map (·.etype) = added.map (·.etype)
  hdr : ∀ r ∈ added, recipe1.length ≤ r.hdr.length

theorem handle_setRssLut {env : AdminEnv} {dev : AdminDev} {ctxs : Slot → DescCtx} {p : Slot} {h : Handled}
    (hd : opcode (ctxs p).desc = opcodeSetRssLut) (hh : handle env dev ctxs p = .ok h) :
    h.calls = [] ∧ ∃ v, (v = dev.vsi0FirstQueue ∨ v = 1) ∧ h.dev = { dev with vsi0FirstQueue := v } := by
  unfold handle at hh
  simp only [hd, opcodeSetRssLut] at hh
  obtain ⟨h1, h2⟩ := replyData_ok hh
  refine ⟨h2, ?_⟩
  rw [h1]
  split
  · exact ⟨1, .inr rfl, rfl⟩
  · exact ⟨_, .inl rfl, rfl⟩

/-- What the command of a step does: a supported rule, nothing at all, or a new first queue. -/
inductive Effect (vm : ℕ) (s t : Twin) : Prop
  | rule (r : RuleElem) (hq : s.mediated.vsi0FirstQueue ≤ r.queueId)
      (hlt : r.queueId < s.mediated.vsi0FirstQueue + maxQueuesPerVm) (hl : recipe1.length ≤ r.hdr.length)
      (ht : t = ⟨{ s.emulated with rules := s.emulated.rules ++ [ruleOf r] },
        { s.mediated with rules := s.mediated.rules ++ [ruleOf r] },
        s.flows ++ [⟨r.etype, getRxQueueId vm (r.dstQueue s.mediated.vsi0FirstQueue)⟩]⟩)
  | skip (ht : t = s)
  | offset (v : ℕ) (hv : v = s.mediated.vsi0FirstQueue ∨ v = 1)
      (ht : t = ⟨{ s.emulated with vsi0FirstQueue := v }, { s.mediated with vsi0FirstQueue := v }, s.flows⟩)

theorem handle_rule {env : AdminEnv} {dev : AdminDev} {ctxs : Slot → DescCtx} {p : Slot} {h : Handled}
    (hd : opcode (ctxs p).desc = opcodeAddSwRules) (hs : (ruleElem (ctxs p).data).Supported)
    (hh : handle env dev ctxs p = .ok h) :
    h.dev = { dev with rules := dev.rules ++ [ruleOf (ruleElem (ctxs p).data)] } ∧
      h.calls = [.addSwitchRule (ruleElem (ctxs p).data).etype
        ((ruleElem (ctxs p).data).dstQueue dev.vsi0FirstQueue)] := by
  refine ⟨(handle_add ⟨hd, rfl, hs⟩ hh).1, ?_⟩
  rw [handle_addSwRules hd] at hh
  obtain ⟨_, -, hh⟩ := bind_ok hh
  rw [if_pos hs] at hh
  exact (replyData_ok hh).2

theorem handle_unsupported {env : AdminEnv} {dev : AdminDev} {ctxs : Slot → DescCtx} {p : Slot} {h : Handled}
    (hd : opcode (ctxs p).desc = opcodeAddSwRules) (hs : ¬(ruleElem (ctxs p).data).Supported)
    (hh : handle env dev ctxs p = .ok h) : h.dev = dev ∧ h.calls = [] := by
  rw [handle_addSwRules hd] at hh
  obtain ⟨_, -, hh⟩ := bind_ok hh
  rw [if_neg hs] at hh
  obtain ⟨h1, h2⟩ := replyData_ok hh
  rw [h1, h2, addRule, if_neg hs]
  exact ⟨rfl, rfl⟩

theorem step_effect {vm : ℕ} {s t : Twin} (htw : s.emulated = s.mediated) (h : TwinStep vm s t) : Effect vm s t := by
  obtain ⟨env, ctxs, p, he, hm, ha, hhe, hhm, rfl⟩ := h
  rw [htw, hhm] at hhe
  cases hhe
  rcases ha with ⟨hd, hq⟩ | hd
  · by_cases hs : (ruleElem (ctxs p).data).Supported
    · obtain ⟨h1, h2⟩ := handle_rule hd hs hhm
      obtain ⟨hq1, hq2⟩ := hq hs
      refine .rule _ hq1 hq2 (handle_add ⟨hd, rfl, hs⟩ hhm).2 ?_
      rw [h1, h2, htw]
      rfl
    · obtain ⟨h1, h2⟩ := handle_unsupported hd hs hhm
      refine .skip ?_
      rw [h1, h2]
      cases s
      simp_all [installed]
  · obtain ⟨h1, v, hv, h2⟩ := handle_setRssLut hd hhm
    refine .offset v hv ?_
    rw [h1, h2, htw]
    simp [installed]

theorem Linked.step {vm : ℕ} {s t : Twin} {added : List RuleElem} (hl : Linked s added) (h : Effect vm s t) :
    ∃ added', Linked t added' := by
  cases h with
  | rule r hq hlt hlen ht =>
    subst ht
    refine ⟨added ++ [r], ?_, hl.vsi, ?_, ?_, ?_⟩
    · dsimp only
      rw [hl.twin]
    · simp [hl.rules]
    · simp [hl.flows]
    · intro r' hr'
      rcases List.mem_append.mp hr' with hr' | hr'
      · exact hl.hdr r' hr'
      · rw [List.mem_singleton.mp hr']
        exact hlen
  | skip ht =>
    subst ht
    exact ⟨added, hl⟩
  | offset v hv ht =>
    subst ht
    refine ⟨added, ?_, ?_, hl.rules, hl.flows, hl.hdr⟩
    · dsimp only
      rw [hl.twin]
    · have := hl.vsi
      dsimp only
      omega

theorem Linked.reachable {vm : ℕ} {s : Twin} (h : (twinMachine vm).Reachable s) : ∃ added, Linked s added := by
  induction h with
  | @start s h =>
    obtain ⟨htw, hr, hv, hf⟩ := h
    refine ⟨[], htw, ?_, ?_, ?_, by simp⟩
    · rwa [← htw]
    · rw [← htw, hr]
      rfl
    · rw [hf]
      rfl
  | step _ h ih =>
    obtain ⟨added, hl⟩ := ih
    exact hl.step (step_effect hl.twin h)

theorem Linked.find_none {s : Twin} {added : List RuleElem} (hl : Linked s added) {data : List UInt8}
    (hd : recipe1.length ≤ data.length) :
    s.flows.find? (·.etype = frameEtype data) = none ↔
      (s.mediated.rules.find? fun rule => rule.matches data) = none := by
  have hflows : s.flows.find? (·.etype = frameEtype data) = none ↔ ∀ e ∈ s.flows.map (·.etype), e ≠ frameEtype data := by
    simp
  rw [hflows, hl.flows, hl.rules, List.find?_eq_none]
  simp only [List.forall_mem_map]
  refine forall_congr' fun r => forall_congr' fun hr => ?_
  rw [not_congr (matches_iff_etype (hl.hdr r hr) hd)]
  exact ne_comm

theorem mediated_of_find {nic : Nic} {vm : ℕ} {s : Twin} {data : List UInt8} {f : FlowRule}
    (h : s.flows.find? (·.etype = frameEtype data) = some f) :
    mediatedQueue nic vm s data = (recv vm f.queueId).map fun q => (s.mediated.vsi0FirstQueue + q) % 0x10000 := by
  rw [mediatedQueue, nic.first h]
  rfl

theorem mediated_default {nic : Nic} {vm : ℕ} {s : Twin} {data : List UInt8}
    (h : s.flows.find? (·.etype = frameEtype data) = none) :
    mediatedQueue nic vm s data = some (s.mediated.vsi0FirstQueue % 0x10000) := by
  rw [mediatedQueue, nic.default h, recv_getRxQueueId vm (by decide)]
  rfl

theorem Linked.agree_default {nic : Nic} {vm : ℕ} {s : Twin} {added : List RuleElem} (hl : Linked s added)
    {data : List UInt8} (hd : recipe1.length ≤ data.length)
    (h : s.flows.find? (·.etype = frameEtype data) = none) :
    mediatedQueue nic vm s data = some (packetQueue s.emulated none data) := by
  rw [mediated_default h, packetQueue_eq _ hd, hl.twin, (hl.find_none hd).mp h]
  rfl

theorem new_rule_agrees (vm : ℕ) {vsi0 : ℕ} {r : RuleElem} (hv : vsi0 ≤ 1) (hq : vsi0 ≤ r.queueId)
    (hlt : r.queueId < vsi0 + maxQueuesPerVm) :
    (recv vm (getRxQueueId vm (r.dstQueue vsi0))).map (fun q => (vsi0 + q) % 0x10000) = some r.queueId := by
  have hd : r.dstQueue vsi0 = r.queueId - vsi0 := by
    unfold RuleElem.dstQueue
    unfold maxQueuesPerVm at hlt
    omega
  rw [hd, recv_getRxQueueId vm (by omega), Option.map_some]
  unfold maxQueuesPerVm at hlt
  congr 1
  omega

theorem rule_agrees {nic : Nic} {vm : ℕ} {s : Twin} {added : List RuleElem} (hl : Linked s added)
    (ha : Agree nic vm s) {r : RuleElem} (hq : s.mediated.vsi0FirstQueue ≤ r.queueId)
    (hlt : r.queueId < s.mediated.vsi0FirstQueue + maxQueuesPerVm) (hlen : recipe1.length ≤ r.hdr.length) :
    Agree nic vm ⟨{ s.emulated with rules := s.emulated.rules ++ [ruleOf r] },
      { s.mediated with rules := s.mediated.rules ++ [ruleOf r] },
      s.flows ++ [⟨r.etype, getRxQueueId vm (r.dstQueue s.mediated.vsi0FirstQueue)⟩]⟩ := by
  intro data hd
  have hold := ha data hd
  rw [packetQueue_append _ _ hd]
  cases hf : s.flows.find? (·.etype = frameEtype data) with
  | some f =>
    -- an older flow, and an older rule with it, still decide
    rw [mediated_of_find hf] at hold
    rw [mediated_of_find (show List.find? _ (s.flows ++ _) = some f by rw [List.find?_append, hf]; rfl)]
    dsimp only
    rw [hold, Option.some_inj]
    split
    · rename_i hm
      have hsome : (s.emulated.rules.find? fun rule => rule.matches data) ≠ none := by
        rw [hl.twin]
        intro hr
        rw [(hl.find_none hd).mpr hr] at hf
        cases hf
      have hsame : (fun rule : Rule => rule.matches data) = fun rule => rule.matches r.hdr := funext (matches_hdr hm)
      rw [packetQueue_eq _ hd, hsame]
      rw [hsame] at hsome
      cases hr : s.emulated.rules.find? fun rule => rule.matches r.hdr with
      | none => exact absurd hr hsome
      | some rule => rfl
    · rfl
  | none =>
    have hnone := (hl.find_none hd).mp hf
    by_cases hm : (ruleOf r).matches data = true
    · have hsame : (fun rule : Rule => rule.matches data) = fun rule => rule.matches r.hdr := funext (matches_hdr hm)
      have he := (matches_iff_etype hlen hd).mp hm
      rw [if_pos hm, hl.twin, ← hsame, hnone]
      rw [mediated_of_find (show List.find? _ (s.flows ++ _) = some _ by
        rw [List.find?_append, hf, Option.none_or, List.find?_singleton, if_pos (by simp [he])])]
      exact new_rule_agrees vm hl.vsi hq hlt
    · have hne : frameEtype data ≠ r.etype := fun he => hm ((matches_iff_etype hlen hd).mpr he)
      rw [if_neg hm, ← hold, mediated_default hf]
      rw [mediated_default (show List.find? _ (s.flows ++ _) = none by
        rw [List.find?_append, hf, Option.none_or, List.find?_singleton, if_neg (by simpa using hne.symm)])]

theorem offset_agrees_iff {nic : Nic} {vm : ℕ} {s t : Twin} {added : List RuleElem} (hl : Linked s added)
    (ha : Agree nic vm s) {v : ℕ} (hv : v = s.mediated.vsi0FirstQueue ∨ v = 1)
    (ht : t = ⟨{ s.emulated with vsi0FirstQueue := v }, { s.mediated with vsi0FirstQueue := v }, s.flows⟩) :
    Agree nic vm t ↔ KeepsOffset s t := by
  by_cases hsame : v = s.mediated.vsi0FirstQueue
  · have hts : t = s := by
      rw [ht, hsame]
      nth_rewrite 1 [← hl.twin]
      rfl
    rw [hts]
    exact iff_of_true ha (.inr rfl)
  cases hadd : added with
  | nil =>
    have hr : s.mediated.rules = [] := by
      rw [hl.rules, hadd]
      rfl
    have hf : s.flows = [] := by
      have := hl.flows
      rw [hadd] at this
      exact List.map_eq_nil_iff.mp this
    refine iff_of_true ?_ (.inl hr)
    intro data hd
    have hf' : t.flows.find? (·.etype = frameEtype data) = none := by
      rw [ht, hf]
      rfl
    rw [mediated_default hf', packetQueue_eq _ hd, ht]
    dsimp only
    rw [hl.twin, hr]
    rfl
  | cons r rest =>
    -- the oldest rule still names its queue, while the hint is counted from the new first queue
    have hlen : recipe1.length ≤ r.hdr.length := hl.hdr r (by simp [hadd])
    refine iff_of_false ?_ ?_
    · intro hg
      have h1 := ha r.hdr hlen
      have h2 := hg r.hdr hlen
      have hrule : ∃ rule, (s.mediated.rules.find? fun rule => rule.matches r.hdr) = some rule := by
        rw [hl.rules, hadd]
        exact ⟨ruleOf r, by simp [matches_self]⟩
      obtain ⟨rule, hrule⟩ := hrule
      cases hf : s.flows.find? (·.etype = frameEtype r.hdr) with
      | none =>
        rw [(hl.find_none hlen).mp hf] at hrule
        cases hrule
      | some f =>
        rw [mediated_of_find hf, packetQueue_eq _ hlen, hl.twin, hrule] at h1
        have hf' : t.flows.find? (·.etype = frameEtype r.hdr) = some f := by
          rw [ht]
          exact hf
        rw [mediated_of_find hf', packetQueue_eq _ hlen, ht] at h2
        dsimp only at h2
        rw [hl.twin, hrule] at h2
        have hvsi := hl.vsi
        cases hq : recv vm f.queueId with
        | none =>
          rw [hq] at h1
          cases h1
        | some q =>
          have hq4 := List.mem_range.mp (List.mem_of_find?_eq_some hq)
          unfold maxQueuesPerVm at hq4
          simp only [hq, Option.map_some, Option.getD_some, Option.some.injEq] at h1 h2
          omega
    · rintro (hr | hk)
      · rw [hl.rules, hadd] at hr
        cases hr
      · rw [ht] at hk
        exact hsame hk

theorem step_agree_iff {nic : Nic} {vm : ℕ} {s t : Twin} (hr : (twinMachine vm).Reachable s) (ha : Agree nic vm s)
    (h : TwinStep vm s t) : Agree nic vm t ↔ KeepsOffset s t := by
  obtain ⟨added, hl⟩ := Linked.reachable hr
  cases step_effect hl.twin h with
  | rule r hq hlt hlen ht =>
    subst ht
    exact iff_of_true (rule_agrees hl ha hq hlt hlen) (.inr rfl)
  | skip ht =>
    subst ht
    exact iff_of_true ha (.inr rfl)
  | offset v hv ht => exact offset_agrees_iff hl ha hv ht

theorem start_agree {nic : Nic} {vm : ℕ} {s : Twin} (h : (twinMachine vm).start s) : Agree nic vm s := by
  obtain ⟨added, hl⟩ := Linked.reachable (.start h)
  intro data hd
  refine hl.agree_default hd ?_
  rw [h.2.2.2]
  rfl

theorem emulation_mediation_agree (nic : Nic) (vm : ℕ) :
    (∀ s, ((twinMachine vm).restrict KeepsOffset).Reachable s → Agree nic vm s) ∧
      ∀ s t, (twinMachine vm).Reachable s → Agree nic vm s → (twinMachine vm).step s t →
        (Agree nic vm t ↔ KeepsOffset s t) := by
  refine ⟨fun s h => ?_, fun s t hr ha h => step_agree_iff hr ha h⟩
  induction h with
  | start h => exact start_agree h
  | step hr h ih => exact (step_agree_iff hr.of_restrict ih h.1).mpr h.2

/-- The NIC as it is assumed to be. -/
def firstMatch : Nic where
  pick vm flows etype := ((flows.find? (·.etype = etype)).map (·.queueId)).getD (getRxQueueId vm 0)
  first h := by rw [h]; rfl
  default h := by rw [h]; rfl

/-- A context that holds a `set_rss_lut` command for a table of 512 entries. -/
def lutCtx : DescCtx where
  state := .processing
  index := 0
  desc := [0x00, 0x14, 0x03, 0x0B] ++ List.replicate 14 0 ++ [0x04] ++ List.replicate 13 0
  data := []

def freshTwin : Twin := ⟨freshDev, freshDev, []⟩

def ruleTwin : Twin :=
  let dev := { freshDev with rules := [ruleOf (ruleElem (ruleCtx 2).data)] }
  ⟨dev, dev, [⟨0x0800, getRxQueueId 7 2⟩]⟩

def movedTwin : Twin :=
  let dev := { freshDev with rules := [ruleOf (ruleElem (ruleCtx 2).data)], vsi0FirstQueue := 1 }
  ⟨dev, dev, [⟨0x0800, getRxQueueId 7 2⟩]⟩

theorem freshTwin_start : (twinMachine 7).start freshTwin := ⟨rfl, rfl, by decide, rfl⟩

theorem isSome_ok {α : Type} {x : Except Fault α} (h : x.toOption.isSome) : ∃ a, x = .ok a := by
  cases x with
  | error f => cases h
  | ok a => exact ⟨a, rfl⟩

theorem ruleTwin_step : TwinStep 7 freshTwin ruleTwin := by
  obtain ⟨h, hh⟩ := isSome_ok (show (handle ⟨0, fun _ => 0⟩ freshDev (fun _ => ruleCtx 2) 0).toOption.isSome by
    decide +kernel)
  have hs : (ruleElem (ruleCtx 2).data).Supported := by decide +kernel
  obtain ⟨h1, h2⟩ := handle_rule rfl hs hh
  refine ⟨_, fun _ => ruleCtx 2, 0, h, h, .inl ⟨rfl, fun _ => by decide +kernel⟩, hh, hh, ?_⟩
  rw [h1, h2]
  rfl

theorem movedTwin_step : TwinStep 7 ruleTwin movedTwin := by
  have hok : (handle ⟨0, fun _ => 0⟩ ruleTwin.mediated (fun _ => lutCtx) 0).toOption.map (·.dev.vsi0FirstQueue) = some 1 := by
    decide +kernel
  cases hh : handle ⟨0, fun _ => 0⟩ ruleTwin.mediated (fun _ => lutCtx) 0 with
  | error f =>
    rw [hh] at hok
    cases hok
  | ok h =>
    obtain ⟨h1, v, -, h2⟩ := handle_setRssLut rfl hh
    rw [hh] at hok
    have hv : v = 1 := by
      have hd : h.dev.vsi0FirstQueue = 1 := Option.some.inj hok
      rwa [h2] at hd
    refine ⟨_, fun _ => lutCtx, 0, h, h, .inr rfl, hh, hh, ?_⟩
    rw [h1, h2, hv]
    rfl

theorem emulation_mediation_agree_ruleTwin :
    ((twinMachine 7).restrict KeepsOffset).Reachable ruleTwin ∧ Agree firstMatch 7 ruleTwin ∧
      mediatedQueue firstMatch 7 ruleTwin ipFrame = some 2 := by
  have hr : ((twinMachine 7).restrict KeepsOffset).Reachable ruleTwin :=
    .step (.start freshTwin_start) ⟨ruleTwin_step, .inl rfl⟩
  exact ⟨hr, (emulation_mediation_agree firstMatch 7).1 _ hr, by decide +kernel⟩

theorem offset_moved_after_rule :
    (twinMachine 7).Reachable movedTwin ∧ packetQueue movedTwin.emulated none ipFrame = 2 ∧
      mediatedQueue firstMatch 7 movedTwin ipFrame = some 3 ∧ ¬Agree firstMatch 7 movedTwin := by
  have he : packetQueue movedTwin.emulated none ipFrame = 2 := by decide +kernel
  have hm : mediatedQueue firstMatch 7 movedTwin ipFrame = some 3 := by decide +kernel
  refine ⟨.step (.step (.start freshTwin_start) ruleTwin_step) movedTwin_step, he, hm, ?_⟩
  intro ha
  have h := ha ipFrame (by decide)
  rw [he, hm] at h
  exact absurd h (by decide)

end Vmux.Mediation
