import Vmux.SwitchIsolation

namespace Vmux.SwitchRules

open Bytes Transitions DescriptorQueue Switch AdminQueue SwitchIsolation

def opcodeRemoveSwRules : ℕ := 0x02A2

/-- `lan::packet_received`: a queue hint comes from the driver of a mediated device. -/
def packetQueue (dev : AdminDev) (hint : Option ℕ) (data : List UInt8) : ℕ :=
  match hint with
  | some q => (dev.vsi0FirstQueue + q) % 0x10000
  | none => selectQueue dev.rules data (dev.vsi0FirstQueue % 0x10000)

def ruleOf (r : RuleElem) : Rule := ⟨r.masked, r.queueId⟩

@[simp] theorem ruleOf_dstQueue (r : RuleElem) : (ruleOf r).dstQueue = r.queueId := rfl

def frameEtype (data : List UInt8) : ℕ := beNat (slice data 12 2)

/-- The queue the guest expects: that of the most recent of its rules that matches. -/
def guestQueue (live : List RuleElem) (vsi0FirstQueue : ℕ) (data : List UInt8) : ℕ :=
  match live.reverse.find? fun r => (ruleOf r).matches data with
  | some r => r.queueId
  | none => vsi0FirstQueue

/-- The device, the rules the guest has added and not removed since, and `ethertype_rules`. -/
structure RuleState where
  dev : AdminDev
  live : List RuleElem
  ethertypeRules : ℕ → Option ℕ

def AsGuestSees (s : RuleState) : Prop :=
  ∀ data, recipe1.length ≤ data.length → packetQueue s.dev none data = guestQueue s.live s.dev.vsi0FirstQueue data

inductive Command
  | add (r : RuleElem)
  | remove (data : List UInt8)

section

variable (names : List UInt8 → RuleElem → Bool)

/-- How a removal names the rules it is about is left open. -/
def remaining (live : List RuleElem) (data : List UInt8) : List RuleElem := live.filter fun r => !names data r

def Command.apply (s : RuleState) (dev : AdminDev) : Command → RuleState
  | add r => ⟨dev, s.live ++ [r], Function.update s.ethertypeRules r.etype (some r.queueId)⟩
  | remove data => ⟨dev, remaining names s.live data, s.ethertypeRules⟩

/-- The descriptor and buffer of a context hold this command. -/
def Command.Posted (x : DescCtx) : Command → Prop
  | add r => opcode x.desc = opcodeAddSwRules ∧ r = ruleElem x.data ∧ r.Supported
  | remove data => opcode x.desc = opcodeRemoveSwRules ∧ data = x.data

def RuleStep (s : RuleState) (c : Command) (t : RuleState) : Prop :=
  ∃ env ctxs p h, c.Posted (ctxs p) ∧ handle env s.dev ctxs p = .ok h ∧ t = c.apply names s h.dev

/-- Runs of commands that satisfy `ok`, from a switch without rules. -/
def ruleMachine (ok : RuleState → Command → Prop) : Machine RuleState where
  start s := s.dev.rules = [] ∧ s.dev.vsi0FirstQueue < 0x10000 ∧ s.live = [] ∧ s.ethertypeRules = fun _ => none
  step s t := ∃ c, ok s c ∧ RuleStep names s c t

/-- A new rule goes where the oldest rule for its header goes, and a removal takes no rule away that
decides for some frame. -/
def Consistent (s : RuleState) : Command → Prop
  | .add r => ∀ rule, (s.dev.rules.find? fun rule => rule.matches r.hdr) = some rule → rule.dstQueue = r.queueId
  | .remove cmd => ∀ data, recipe1.length ≤ data.length →
      guestQueue (remaining names s.live cmd) s.dev.vsi0FirstQueue data =
        guestQueue s.live s.dev.vsi0FirstQueue data

end

theorem recipe1_getD (i : ℕ) : recipe1.getD i 0 = if i = 12 ∨ i = 13 then 0xFF else 0 := by
  by_cases hi : i < 56
  · have h : ∀ i < 56, recipe1.getD i 0 = if i = 12 ∨ i = 13 then 0xFF else 0 := by decide
    exact h i hi
  · have hlen : recipe1.length ≤ i := by
      simp only [show recipe1.length = 56 from rfl]
      omega
    rw [List.getD_eq_getElem?_getD, List.getElem?_eq_none hlen, if_neg (by omega)]
    rfl

theorem masked_getD (r : RuleElem) (i : ℕ) : r.masked.getD i 0 = recipe1.getD i 0 &&& r.hdr.getD i 0 := by
  unfold RuleElem.masked
  simp only [List.getD_eq_getElem?_getD, List.getElem?_zipWith]
  cases recipe1[i]? <;> cases r.hdr[i]? <;> simp

theorem full_and (x : UInt8) : 0xFF &&& x = x := by
  rw [show (0xFF : UInt8) = -1 from rfl]
  simp

theorem matches_iff (r : RuleElem) (data : List UInt8) :
    (ruleOf r).matches data = true ↔ data.getD 12 0 = r.hdr.getD 12 0 ∧ data.getD 13 0 = r.hdr.getD 13 0 := by
  simp only [Rule.matches, ruleOf, masked_getD, List.all_eq_true, List.mem_range, decide_eq_true_eq]
  constructor
  · intro h
    have h12 := h 12 (by decide)
    have h13 := h 13 (by decide)
    rw [recipe1_getD, if_pos (by decide), full_and, full_and] at h12 h13
    exact ⟨h12, h13⟩
  · rintro ⟨h12, h13⟩ i -
    rw [recipe1_getD]
    split
    · rename_i hi
      rcases hi with rfl | rfl
      · rw [h12]
      · rw [h13]
    · simp

theorem matches_hdr {r : RuleElem} {data : List UInt8} (h : (ruleOf r).matches data = true) (rule : Rule) :
    rule.matches data = rule.matches r.hdr := by
  obtain ⟨h12, h13⟩ := (matches_iff r data).mp h
  unfold Rule.matches
  congr 1
  funext i
  rw [recipe1_getD]
  by_cases hi : i = 12 ∨ i = 13
  · rcases hi with rfl | rfl
    · rw [h12]
    · rw [h13]
  · simp [hi]

theorem matches_self (r : RuleElem) : (ruleOf r).matches r.hdr = true := (matches_iff r r.hdr).mpr ⟨rfl, rfl⟩

theorem beNat_slice {l : List UInt8} (hl : 14 ≤ l.length) :
    beNat (slice l 12 2) = (l.getD 12 0).toNat * 256 + (l.getD 13 0).toNat := by
  have h : slice l 12 2 = [l.getD 12 0, l.getD 13 0] := by
    apply List.ext_getElem?
    intro i
    rcases i with _ | _ | i
    · simp [slice, List.getElem?_eq_getElem (show 12 < l.length by omega)]
    · simp [slice, List.getElem?_eq_getElem (show 13 < l.length by omega)]
    · simp [slice]
  rw [h]
  simp only [beNat, List.reverse_cons, List.reverse_nil, List.nil_append, List.singleton_append, leNat]
  omega

theorem matches_iff_etype {r : RuleElem} {data : List UInt8} (hr : recipe1.length ≤ r.hdr.length)
    (hd : recipe1.length ≤ data.length) : (ruleOf r).matches data = true ↔ frameEtype data = r.etype := by
  simp only [show recipe1.length = 56 from rfl] at hr hd
  rw [matches_iff, frameEtype, RuleElem.etype, beNat_slice (by omega), beNat_slice (by omega)]
  have h12 := (data.getD 12 0).toNat_lt
  have h13 := (data.getD 13 0).toNat_lt
  have g12 := (r.hdr.getD 12 0).toNat_lt
  have g13 := (r.hdr.getD 13 0).toNat_lt
  constructor
  · rintro ⟨h, h'⟩
    rw [h, h']
  · intro h
    exact ⟨UInt8.toNat_inj.mp (by omega), UInt8.toNat_inj.mp (by omega)⟩

theorem handle_add {env : AdminEnv} {dev : AdminDev} {ctxs : Slot → DescCtx} {p : Slot} {h : Handled} {r : RuleElem}
    (hc : Command.Posted (ctxs p) (.add r)) (hh : handle env dev ctxs p = .ok h) :
    h.dev = { dev with rules := dev.rules ++ [ruleOf r] } ∧ recipe1.length ≤ r.hdr.length := by
  obtain ⟨hd, rfl, hs⟩ := hc
  rw [handle_addSwRules hd] at hh
  obtain ⟨_, hn, hh⟩ := bind_ok hh
  refine ⟨?_, ?_⟩
  · rw [(replyData_ok hh).1, addRule, if_pos hs]
    rfl
  · have huse : ruleUse (ruleElem (ctxs p).data) = 16 + recipe1.length := by
      rw [ruleUse, if_pos ⟨by rw [hs.1]; decide, hs.2.1⟩, hs.2.2.2]
    unfold need at hn
    split at hn
    · cases hn
    · simp only [ruleElem, List.length_drop]
      omega

theorem handle_remove {env : AdminEnv} {dev : AdminDev} {ctxs : Slot → DescCtx} {p : Slot} {h : Handled}
    {data : List UInt8} (hc : Command.Posted (ctxs p) (.remove data)) (hh : handle env dev ctxs p = .ok h) :
    h.dev = dev := by
  unfold handle at hh
  simp only [hc.1, opcodeRemoveSwRules] at hh
  obtain ⟨_, -, hh⟩ := bind_ok hh
  obtain ⟨_, -, hh⟩ := bind_ok hh
  cases hh
  rfl

theorem packetQueue_eq (dev : AdminDev) {data : List UInt8} (hl : recipe1.length ≤ data.length) :
    packetQueue dev none data =
      ((dev.rules.find? fun rule => rule.matches data).map (·.dstQueue)).getD (dev.vsi0FirstQueue % 0x10000) := by
  have h14 : ¬data.length < 14 := by
    simp only [show recipe1.length = 56 from rfl] at hl
    omega
  simp only [packetQueue, selectQueue, if_neg h14]
  cases dev.rules.find? fun rule => rule.matches data <;> rfl

theorem guestQueue_append (live : List RuleElem) (vsi0 : ℕ) (r : RuleElem) (data : List UInt8) :
    guestQueue (live ++ [r]) vsi0 data = if (ruleOf r).matches data then r.queueId else guestQueue live vsi0 data := by
  unfold guestQueue
  rw [List.reverse_append, List.reverse_singleton, List.singleton_append, List.find?_cons]
  by_cases hm : (ruleOf r).matches data = true <;> simp [hm]

theorem packetQueue_append (dev : AdminDev) (r : RuleElem) {data : List UInt8} (hl : recipe1.length ≤ data.length) :
    packetQueue { dev with rules := dev.rules ++ [ruleOf r] } none data =
      if (ruleOf r).matches data then
        ((dev.rules.find? fun rule => rule.matches r.hdr).map (·.dstQueue)).getD r.queueId
      else packetQueue dev none data := by
  rw [packetQueue_eq _ hl, packetQueue_eq _ hl]
  dsimp only
  rw [List.find?_append]
  split
  · rename_i hm
    have hsame : (fun rule : Rule => rule.matches data) = fun rule => rule.matches r.hdr := funext (matches_hdr hm)
    rw [hsame]
    cases dev.rules.find? fun rule => rule.matches r.hdr <;> simp [matches_self]
  · rename_i hm
    cases dev.rules.find? fun rule => rule.matches data <;> simp [hm]

section

variable {names : List UInt8 → RuleElem → Bool} {ok : RuleState → Command → Prop}

theorem step_add_iff {s t : RuleState} {r : RuleElem} (hs : AsGuestSees s) (h : RuleStep names s (.add r) t) :
    AsGuestSees t ↔ Consistent names s (.add r) := by
  obtain ⟨env, ctxs, p, hd, hc, hh, rfl⟩ := h
  obtain ⟨hdev, hlen⟩ := handle_add hc hh
  have hiff : ∀ data, recipe1.length ≤ data.length →
      (packetQueue hd.dev none data = guestQueue (s.live ++ [r]) hd.dev.vsi0FirstQueue data ↔
        ((ruleOf r).matches data = true →
          ((s.dev.rules.find? fun rule => rule.matches r.hdr).map (·.dstQueue)).getD r.queueId = r.queueId)) := by
    intro data hl
    rw [hdev, packetQueue_append s.dev r hl, guestQueue_append]
    by_cases hm : (ruleOf r).matches data = true
    · simp [hm]
    · simpa [hm] using hs data hl
  have hdec : ((s.dev.rules.find? fun rule => rule.matches r.hdr).map (·.dstQueue)).getD r.queueId = r.queueId ↔
      Consistent names s (.add r) := by
    simp only [Consistent]
    cases s.dev.rules.find? fun rule => rule.matches r.hdr <;> simp
  rw [← hdec]
  constructor
  · intro hg
    exact (hiff r.hdr hlen).mp (hg r.hdr hlen) (matches_self r)
  · intro hq data hl
    exact (hiff data hl).mpr fun _ => hq

theorem step_remove_iff {s t : RuleState} {cmd : List UInt8} (hs : AsGuestSees s)
    (h : RuleStep names s (.remove cmd) t) : AsGuestSees t ↔ Consistent names s (.remove cmd) := by
  obtain ⟨env, ctxs, p, hd, hc, hh, rfl⟩ := h
  have hdev := handle_remove hc hh
  refine forall_congr' fun data => forall_congr' fun hl => ?_
  change packetQueue hd.dev none data = guestQueue (remaining names s.live cmd) hd.dev.vsi0FirstQueue data ↔ _
  rw [hdev, hs data hl]
  exact eq_comm

theorem step_asGuestSees_iff {s t : RuleState} {c : Command} (hs : AsGuestSees s) (h : RuleStep names s c t) :
    AsGuestSees t ↔ Consistent names s c := by
  cases c with
  | add r => exact step_add_iff hs h
  | remove cmd => exact step_remove_iff hs h

theorem start_asGuestSees {s : RuleState} (h : (ruleMachine names ok).start s) : AsGuestSees s := by
  obtain ⟨hr, hv, hl, -⟩ := h
  intro data hlen
  rw [packetQueue_eq _ hlen, hr, hl, Nat.mod_eq_of_lt hv]
  rfl

theorem consistent_run {s : RuleState} (h : (ruleMachine names (Consistent names)).Reachable s) : AsGuestSees s := by
  refine h.invariant (fun s hs => start_asGuestSees hs) ?_
  rintro s t hs ⟨c, hc, hstep⟩
  exact (step_asGuestSees_iff hs hstep).mpr hc

/-- Without removals the map beside the rule list records what the guest expects. -/
def Recorded (s : RuleState) : Prop :=
  ∀ data, recipe1.length ≤ data.length →
    guestQueue s.live s.dev.vsi0FirstQueue data = (s.ethertypeRules (frameEtype data)).getD s.dev.vsi0FirstQueue

def isAdd (_ : RuleState) (c : Command) : Prop := ∃ r, c = .add r

theorem step_recorded {s t : RuleState} {r : RuleElem} (hs : Recorded s) (h : RuleStep names s (.add r) t) :
    Recorded t := by
  obtain ⟨env, ctxs, p, hd, hc, hh, rfl⟩ := h
  obtain ⟨hdev, hlen⟩ := handle_add hc hh
  intro data hl
  change guestQueue (s.live ++ [r]) hd.dev.vsi0FirstQueue data =
    (Function.update s.ethertypeRules r.etype (some r.queueId) (frameEtype data)).getD hd.dev.vsi0FirstQueue
  rw [guestQueue_append, hdev]
  by_cases hm : (ruleOf r).matches data = true
  · rw [if_pos hm, (matches_iff_etype hlen hl).mp hm, Function.update_self]
    rfl
  · have hne : frameEtype data ≠ r.etype := fun he => hm ((matches_iff_etype hlen hl).mpr he)
    rw [if_neg hm, Function.update_of_ne hne]
    exact hs data hl

theorem recorded_run {s : RuleState} (h : (ruleMachine names isAdd).Reachable s) : Recorded s := by
  refine h.invariant ?_ ?_
  · rintro s ⟨-, -, hl, he⟩ data -
    rw [hl, he]
    rfl
  · rintro s t hs ⟨c, ⟨r, rfl⟩, hstep⟩
    exact step_recorded hs hstep

end

theorem rules_as_guest_sees (names : List UInt8 → RuleElem → Bool) :
    (∀ s, (ruleMachine names (Consistent names)).Reachable s → AsGuestSees s) ∧
      (∀ ok s c t, (ruleMachine names ok).Reachable s → AsGuestSees s → RuleStep names s c t →
        (AsGuestSees t ↔ Consistent names s c)) ∧
      ∀ s, (ruleMachine names isAdd).Reachable s → Recorded s :=
  ⟨fun _ => consistent_run, fun _ _ _ _ _ hs h => step_asGuestSees_iff hs h, fun _ => recorded_run⟩

/-- A context that holds an `add_sw_rules` command for ethertype 0x0800. -/
def ruleCtx (queue : ℕ) : DescCtx where
  state := .processing
  index := 0
  desc := [0x00, 0x14, 0xA0, 0x02, 72] ++ List.replicate 27 0
  data := List.replicate 8 0 ++ leBytes 4 (1 + queue * 16) ++ [0, 0, 56, 0] ++ List.replicate 12 0 ++ [0x08, 0x00] ++
    List.replicate 42 0

def ipFrame : List UInt8 := List.replicate 12 0 ++ [0x08, 0x00] ++ List.replicate 46 0

def rulesAdded (queues : List ℕ) : RuleState where
  dev := { freshDev with rules := queues.map fun q => ruleOf (ruleElem (ruleCtx q).data) }
  live := queues.map fun q => ruleElem (ruleCtx q).data
  ethertypeRules := queues.foldl (fun m q => Function.update m 0x0800 (some q)) fun _ => none

theorem rulesAdded_step (names : List UInt8 → RuleElem → Bool) (queues : List ℕ) (queue : ℕ)
    (hq : (handle ⟨0, fun _ => 0⟩ (rulesAdded queues).dev (fun _ => ruleCtx queue) 0).toOption.isSome)
    (hs : (ruleElem (ruleCtx queue).data).Supported)
    (he : (ruleElem (ruleCtx queue).data).etype = 0x0800 ∧ (ruleElem (ruleCtx queue).data).queueId = queue) :
    RuleStep names (rulesAdded queues) (.add (ruleElem (ruleCtx queue).data)) (rulesAdded (queues ++ [queue])) := by
  cases hh : handle ⟨0, fun _ => 0⟩ (rulesAdded queues).dev (fun _ => ruleCtx queue) 0 with
  | error f =>
    rw [hh] at hq
    cases hq
  | ok h =>
    have hc : Command.Posted (ruleCtx queue) (.add (ruleElem (ruleCtx queue).data)) := ⟨rfl, rfl, hs⟩
    refine ⟨_, fun _ => ruleCtx queue, 0, h, hc, hh, ?_⟩
    simp [Command.apply, (handle_add hc hh).1, rulesAdded, he]

theorem rulesAdded_start (names : List UInt8 → RuleElem → Bool) (ok : RuleState → Command → Prop) :
    (ruleMachine names ok).start (rulesAdded []) :=
  ⟨rfl, by decide, rfl, rfl⟩

def byHeader (data : List UInt8) (r : RuleElem) : Bool := (ruleElem data).hdr = r.hdr

/-- A context that holds a `remove_sw_rules` command with an empty buffer. -/
def removeCtx : DescCtx where
  state := .processing
  index := 0
  desc := [0x00, 0x14, 0xA2, 0x02, 72] ++ List.replicate 27 0
  data := List.replicate 72 0

theorem rulesAdded_remove (queues : List ℕ)
    (hq : (handle ⟨0, fun _ => 0⟩ (rulesAdded queues).dev (fun _ => removeCtx) 0).toOption.isSome)
    (hn : remaining byHeader (rulesAdded queues).live removeCtx.data = (rulesAdded queues).live) :
    RuleStep byHeader (rulesAdded queues) (.remove removeCtx.data) (rulesAdded queues) := by
  cases hh : handle ⟨0, fun _ => 0⟩ (rulesAdded queues).dev (fun _ => removeCtx) 0 with
  | error f =>
    rw [hh] at hq
    cases hq
  | ok h =>
    have hc : Command.Posted removeCtx (.remove removeCtx.data) := ⟨rfl, rfl⟩
    refine ⟨_, fun _ => removeCtx, 0, h, hc, hh, ?_⟩
    simp only [Command.apply, handle_remove hc hh, hn]

/-- The same rule twice, and a removal that is about neither. -/
theorem rules_as_guest_sees_twice :
    (ruleMachine byHeader (Consistent byHeader)).Reachable (rulesAdded [1, 1]) ∧
      (ruleMachine byHeader (Consistent byHeader)).step (rulesAdded [1, 1]) (rulesAdded [1, 1]) ∧
      AsGuestSees (rulesAdded [1, 1]) ∧ packetQueue (rulesAdded [1, 1]).dev none ipFrame = 1 := by
  have h1 := rulesAdded_step byHeader [] 1 (by decide +kernel) (by decide +kernel) (by decide +kernel)
  have h2 := rulesAdded_step byHeader [1] 1 (by decide +kernel) (by decide +kernel) (by decide +kernel)
  have hkept : remaining byHeader (rulesAdded [1, 1]).live removeCtx.data = (rulesAdded [1, 1]).live := by
    refine List.filter_eq_self.mpr fun r hr => ?_
    have hall : ∀ r ∈ (rulesAdded [1, 1]).live, !byHeader removeCtx.data r := by decide +kernel
    exact hall r hr
  have h3 := rulesAdded_remove [1, 1] (by decide +kernel) hkept
  have hremove : Consistent byHeader (rulesAdded [1, 1]) (.remove removeCtx.data) := by
    intro data _
    rw [hkept]
  have hone : (ruleMachine byHeader (Consistent byHeader)).Reachable (rulesAdded [1]) := by
    refine .step (.start (rulesAdded_start _ _)) ⟨_, ?_, h1⟩
    rintro rule ⟨⟩
  have hadd : Consistent byHeader (rulesAdded [1]) (.add (ruleElem (ruleCtx 1).data)) := by
    intro rule hrule
    obtain rfl := List.mem_singleton.mp (List.mem_of_find?_eq_some hrule)
    rfl
  have hr : (ruleMachine byHeader (Consistent byHeader)).Reachable (rulesAdded [1, 1]) := hone.step ⟨_, hadd, h2⟩
  exact ⟨.step hr ⟨_, hremove, h3⟩, ⟨_, hremove, h3⟩, (rules_as_guest_sees byHeader).1 _ hr, by decide +kernel⟩

/-- Two rules for one ethertype: frames go to the queue of the first. -/
theorem oldest_rule_wins :
    (ruleMachine byHeader fun _ _ => True).Reachable (rulesAdded [1, 2]) ∧
      packetQueue (rulesAdded [1, 2]).dev none ipFrame = 1 ∧ guestQueue (rulesAdded [1, 2]).live 0 ipFrame = 2 ∧
      (rulesAdded [1, 2]).ethertypeRules (frameEtype ipFrame) = some 2 ∧ ¬AsGuestSees (rulesAdded [1, 2]) := by
  have h1 := rulesAdded_step byHeader [] 1 (by decide +kernel) (by decide +kernel) (by decide +kernel)
  have h2 := rulesAdded_step byHeader [1] 2 (by decide +kernel) (by decide +kernel) (by decide +kernel)
  have hp : packetQueue (rulesAdded [1, 2]).dev none ipFrame = 1 := by decide +kernel
  have hg : guestQueue (rulesAdded [1, 2]).live 0 ipFrame = 2 := by decide +kernel
  refine ⟨.step (.step (.start (rulesAdded_start _ _)) ⟨_, trivial, h1⟩) ⟨_, trivial, h2⟩, hp, hg, by decide +kernel, ?_⟩
  intro h
  have := h ipFrame (by decide)
  rw [hp] at this
  exact absurd (this.trans hg) (by decide)

end Vmux.SwitchRules
