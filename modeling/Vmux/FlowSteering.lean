import Vmux.Mediation

namespace Vmux.FlowSteering

open Bytes Transitions Switch

/-- The loop of `Util::intcrement_mac` over the bytes from the last one on. -/
def carry : ℕ → List UInt8 → List UInt8
  | _, [] => []
  | incrementValue, b :: bs =>
    UInt8.ofNat ((incrementValue + b.toNat) % 0x100) ::
      if (incrementValue + b.toNat) / 0x100 = 0 then bs else carry ((incrementValue + b.toNat) / 0x100) bs

def intcrementMac (mac : List UInt8) (increment : ℕ) : List UInt8 := (carry increment mac.reverse).reverse

theorem carry_length (v : ℕ) (bs : List UInt8) : (carry v bs).length = bs.length := by
  induction bs generalizing v with
  | nil => rfl
  | cons b bs ih =>
    rw [carry]
    split
    · simp
    · simp [ih]

theorem carry_value (v : ℕ) (bs : List UInt8) : leNat (carry v bs) = (leNat bs + v) % 256 ^ bs.length := by
  induction bs generalizing v with
  | nil => simp [carry, leNat, Nat.mod_one]
  | cons b bs ih =>
    have hb := UInt8.toNat_lt b
    have hbyte : (UInt8.ofNat ((v + b.toNat) % 0x100)).toNat = (v + b.toNat) % 0x100 := by
      simp
    have hlt := leNat_lt bs
    rw [carry, leNat, hbyte, leNat, List.length_cons, Nat.pow_succ]
    set m := 256 ^ bs.length
    split
    · rename_i hz
      have hsum : b.toNat + 256 * leNat bs + v < m * 256 := by omega
      rw [Nat.mod_eq_of_lt hsum]
      omega
    · rw [ih]
      have hsplit : b.toNat + 256 * leNat bs + v = (v + b.toNat) % 0x100 + 256 * (leNat bs + (v + b.toNat) / 0x100) := by
        omega
      rw [hsplit, Nat.mul_comm m 256, Nat.mod_mul, Nat.add_mul_mod_self_left, Nat.mod_mod,
        Nat.add_mul_div_left _ _ (by norm_num), Nat.div_eq_of_lt (Nat.mod_lt _ (by norm_num)), Nat.zero_add]

theorem intcrementMac_length (mac : List UInt8) (inc : ℕ) : (intcrementMac mac inc).length = mac.length := by
  simp [intcrementMac, carry_length]

theorem intcrementMac_value (mac : List UInt8) (inc : ℕ) :
    beNat (intcrementMac mac inc) = (beNat mac + inc) % 256 ^ mac.length := by
  rw [intcrementMac, beNat, List.reverse_reverse, carry_value, List.length_reverse]
  rfl

theorem intcrementMac_injective (mac : List UInt8) (hm : mac.length = 6) {v w : ℕ} (hv : v < 0x1000000000000)
    (hw : w < 0x1000000000000) (h : intcrementMac mac v = intcrementMac mac w) : v = w := by
  have heq : (beNat mac + v) % 256 ^ 6 = (beNat mac + w) % 256 ^ 6 := by
    rw [← hm, ← intcrementMac_value, ← intcrementMac_value, h]
  have hlt : beNat mac < 256 ^ 6 := by
    rw [← hm, beNat]
    simpa using leNat_lt mac.reverse
  omega

/-- `struct rte_flow_item_eth`, and the header of a frame: addresses and type as bytes. -/
structure EthItem where
  dst : List UInt8
  src : List UInt8
  type : List UInt8
deriving DecidableEq, Repr

structure EthFlow where
  spec : EthItem
  mask : EthItem
  queue : ℕ
deriving DecidableEq, Repr

def masked (mask x : List UInt8) : List UInt8 := List.zipWith (· &&& ·) mask x

def EthFlow.matches (f : EthFlow) (frame : EthItem) : Bool :=
  masked f.mask.dst f.spec.dst = masked f.mask.dst frame.dst ∧ masked f.mask.src f.spec.src = masked f.mask.src frame.src ∧
    masked f.mask.type f.spec.type = masked f.mask.type frame.type

def anyMac : List UInt8 := List.replicate 6 0x00
def fullMac : List UInt8 := List.replicate 6 0xFF

def generateEthFlow (rxQ : ℕ) (srcMac srcMask destMac destMask : List UInt8) (etype etypeMask : ℕ) : EthFlow where
  spec := ⟨destMac, srcMac, beBytes 2 etype⟩
  mask := ⟨destMask, srcMask, leBytes 2 etypeMask⟩
  queue := rxQ

/-- The flows that the constructor of `Dpdk` creates for `numVms` addresses from `macAddr` on. -/
def initialFlows (numVms : ℕ) (macAddr : List UInt8) : List EthFlow :=
  (List.range numVms).map fun vm =>
    generateEthFlow (getRxQueueId vm 0) anyMac anyMac (intcrementMac macAddr vm) fullMac 0 0

/-- `Dpdk::add_switch_rule` for an ethertype. -/
def addEtypeRule (mediate : Bool) (vm : ℕ) (created : Bool) (dstAddr : List UInt8) (etype dstQueue : ℕ) : Option EthFlow :=
  (addSwitchRule mediate vm created etype dstQueue).map fun r =>
    generateEthFlow r.queueId anyMac anyMac dstAddr fullMac r.etype 0xFFFF

/-- Sizes and offsets in the structures of `rte_flow.h`. -/
structure FlowLayout where
  attr : ℕ
  eth : ℕ
  type : ℕ
  queue : ℕ

/-- An item that the guest sends only if its flag is set. -/
def optional (present : Bool) (n : ℕ) (src : List UInt8) : List UInt8 × List UInt8 :=
  if present then (src.take n, src.drop n) else (List.replicate n 0, src)

/-- The ethertype and the queue that `FLOW_CREATE` reads from the buffer of the guest. -/
def flowCreate (l : FlowLayout) (flowbuf : List UInt8) : Option (ℕ × ℕ) :=
  let src := flowbuf.drop l.attr
  let nullFlags := get8 src 0
  let (spec, src) := optional (nullFlags % 2 = 1) l.eth (src.drop 1)
  let (_, src) := optional (nullFlags / 2 % 2 = 1) l.eth src
  let (mask, src) := optional (nullFlags / 4 % 2 = 1) l.eth src
  let (action, _) := optional (get8 src 0 ≠ 0) l.queue (src.drop 1)
  if get16 mask l.type ≠ 0xFFFF then none
  else if get16 action 0 ≥ 4 then none
  else some (beNat (slice spec l.type 2), get16 action 0)

inductive Mode
  | emulation | mediation | vdpdk
deriving DecidableEq, Repr

/-- `mediation_enable` is called for a device in one of these modes. -/
def Mode.mediates : Mode → Bool
  | emulation => false
  | mediation | vdpdk => true

structure Setup where
  macAddr : List UInt8
  modes : List Mode
  layout : FlowLayout

namespace Setup

variable (s : Setup)

def numVms : ℕ := s.modes.length

/-- The address of a device as `_main` computes it. -/
def mac (vm : ℕ) : List UInt8 := intcrementMac s.macAddr vm

def mediates (vm : ℕ) : Bool := (s.modes.getD vm .emulation).mediates

/-- The flows in the NIC after a guest asked for one more: a vDPDK guest through its buffer, and a
guest of the E810 model with any ethertype and any queue. -/
inductive Step (flows : List EthFlow) : List EthFlow → Prop
  | flowCreate (vm etype index : ℕ) (flowbuf : List UInt8) (created : Bool) (hv : s.modes[vm]? = some .vdpdk)
      (hf : FlowSteering.flowCreate s.layout flowbuf = some (etype, index)) :
      Step flows (flows ++ (addEtypeRule (s.mediates vm) vm created (s.mac vm) etype index).toList)
  | addSwitchEtypeRule (vm etype dstQueue : ℕ) (created : Bool)
      (hv : s.modes[vm]? = some .emulation ∨ s.modes[vm]? = some .mediation) :
      Step flows (flows ++ (addEtypeRule (s.mediates vm) vm created (s.mac vm) etype dstQueue).toList)

def steering : Machine (List EthFlow) where
  start flows := flows = initialFlows s.numVms s.macAddr
  step := s.Step

end Setup

/-- The NIC sends a frame to the queue of a rule that matches it, if there is one. -/
structure FlowTable where
  pick : List EthFlow → EthItem → ℕ
  of_match : ∀ {flows frame}, (∃ f ∈ flows, f.matches frame = true) →
    ∃ f ∈ flows, f.matches frame = true ∧ pick flows frame = f.queue

structure EthItem.IsFrame (frame : EthItem) : Prop where
  dst : frame.dst.length = 6
  src : frame.src.length = 6
  type : frame.type.length = 2

theorem masked_full (x : List UInt8) (h : x.length = 6) : masked fullMac x = x := by
  apply List.ext_getElem
  · simp [masked, fullMac, h]
  · intro i h1 h2
    have hff : ∀ b : UInt8, 0xFF &&& b = b := fun b => UInt8.neg_one_and
    simp only [masked, fullMac, List.getElem_zipWith, List.getElem_replicate, hff]

theorem masked_zero (n : ℕ) (x : List UInt8) (h : x.length = n) :
    masked (List.replicate n 0) x = List.replicate n 0 := by
  apply List.ext_getElem
  · simp [masked, h]
  · intro i h1 h2
    simp [masked]

/-- The rule of a VM for an ethertype, or with an empty mask for all of them. -/
def rule (s : Setup) (vm queue etype etypeMask : ℕ) : EthFlow :=
  generateEthFlow queue anyMac anyMac (s.mac vm) fullMac etype etypeMask

variable {s : Setup} {flows : List EthFlow} {f : EthFlow} {frame : EthItem} {vm w : ℕ}

theorem mac_length (hm : s.macAddr.length = 6) (vm : ℕ) : (s.mac vm).length = 6 := by
  rw [Setup.mac, intcrementMac_length, hm]

theorem rule_dst {queue etype etypeMask : ℕ} (hm : s.macAddr.length = 6) (hf : frame.IsFrame)
    (h : (rule s vm queue etype etypeMask).matches frame = true) : frame.dst = s.mac vm := by
  obtain ⟨hd, -, -⟩ := of_decide_eq_true h
  simp only [rule, generateEthFlow] at hd
  rw [masked_full _ (mac_length hm vm), masked_full _ hf.dst] at hd
  exact hd.symm

theorem default_matches (hf : frame.IsFrame) (hd : frame.dst = s.mac vm) (queue : ℕ) :
    (rule s vm queue 0 0).matches frame = true := by
  have htype : masked (leBytes 2 0) (beBytes 2 0) = masked (leBytes 2 0) frame.type := by
    change masked (List.replicate 2 0) (List.replicate 2 0) = masked (List.replicate 2 0) frame.type
    rw [masked_zero 2 _ (by simp), masked_zero 2 _ hf.type]
  have hsrc : masked anyMac anyMac = masked anyMac frame.src := by
    rw [anyMac, masked_zero 6 _ (by simp), masked_zero 6 _ hf.src]
  refine decide_eq_true ⟨?_, hsrc, htype⟩
  rw [hd]
  rfl

theorem flowCreate_index {l : FlowLayout} {flowbuf : List UInt8} {etype index : ℕ}
    (h : flowCreate l flowbuf = some (etype, index)) : index < maxQueuesPerVm := by
  simp only [flowCreate] at h
  split at h
  · cases h
  split at h
  · cases h
  · rename_i hlt
    obtain ⟨-, rfl⟩ := Prod.mk.inj (Option.some.inj h)
    exact Nat.lt_of_not_le hlt

theorem addEtypeRule_mem {mediate created : Bool} {etype dstQueue : ℕ}
    (h : f ∈ (addEtypeRule mediate vm created (s.mac vm) etype dstQueue).toList) :
    mediate = true ∧ f = rule s vm (getRxQueueId vm dstQueue) etype 0xFFFF := by
  cases mediate
  · cases h
  · cases created
    · cases h
    · exact ⟨rfl, List.mem_singleton.mp h⟩

/-- The flows in the NIC: for each VM the rule for all of its frames, and rules that VMs asked for. -/
structure Aimed (s : Setup) (flows : List EthFlow) : Prop where
  default : ∀ vm < s.numVms, rule s vm (getRxQueueId vm 0) 0 0 ∈ flows
  own : ∀ f ∈ flows, ∃ vm < s.numVms, ∃ q etype etypeMask, f = rule s vm (getRxQueueId vm q) etype etypeMask ∧
    (s.modes[vm]? = some .mediation ∨ q < maxQueuesPerVm)

theorem Aimed.initial (s : Setup) : Aimed s (initialFlows s.numVms s.macAddr) := by
  constructor
  · intro vm hv
    exact List.mem_map.mpr ⟨vm, List.mem_range.mpr hv, rfl⟩
  · intro f hf
    obtain ⟨vm, hv, rfl⟩ := List.mem_map.mp hf
    exact ⟨vm, List.mem_range.mp hv, 0, 0, 0, rfl, .inr (by decide)⟩

theorem Aimed.append (h : Aimed s flows) (new : List EthFlow) (hn : ∀ f ∈ new, ∃ vm < s.numVms, ∃ q etype etypeMask,
    f = rule s vm (getRxQueueId vm q) etype etypeMask ∧ (s.modes[vm]? = some .mediation ∨ q < maxQueuesPerVm)) :
    Aimed s (flows ++ new) := by
  constructor
  · intro vm hv
    exact List.mem_append_left _ (h.default vm hv)
  · intro f hf
    rcases List.mem_append.mp hf with hf | hf
    · exact h.own f hf
    · exact hn f hf

theorem Aimed.step {flows' : List EthFlow} (h : Aimed s flows) (hs : s.Step flows flows') : Aimed s flows' := by
  have hlt : ∀ {vm : ℕ} {mode : Mode}, s.modes[vm]? = some mode → vm < s.numVms :=
    fun hv => (List.getElem?_eq_some_iff.mp hv).1
  cases hs with
  | flowCreate vm etype index flowbuf created hv hf =>
    refine h.append _ fun f hm => ?_
    obtain ⟨-, rfl⟩ := addEtypeRule_mem hm
    exact ⟨vm, hlt hv, index, etype, 0xFFFF, rfl, .inr (flowCreate_index hf)⟩
  | addSwitchEtypeRule vm etype dstQueue created hv =>
    refine h.append _ fun f hm => ?_
    obtain ⟨hmed, rfl⟩ := addEtypeRule_mem hm
    rcases hv with hv | hv
    · rw [Setup.mediates, List.getD_eq_getElem?_getD, hv] at hmed
      cases hmed
    · exact ⟨vm, hlt hv, dstQueue, etype, 0xFFFF, rfl, .inl hv⟩

theorem Aimed.reachable (h : s.steering.Reachable flows) : Aimed s flows := by
  apply h.invariant
  · intro t ht
    rw [ht]
    exact Aimed.initial s
  · intro t t' ht hs
    exact ht.step hs

theorem recv_isSome {v q : ℕ} (hv : v < s.numVms) (hw : w < s.numVms) (hn : s.numVms * maxQueuesPerVm < 0x10000)
    (hq : q < maxQueuesPerVm) : (Mediation.recv v (getRxQueueId w q)).isSome ↔ v = w := by
  constructor
  · intro h
    obtain ⟨k, hk⟩ := Option.isSome_iff_exists.mp h
    have hfound := List.find?_some hk
    have hsome : getRxQueueId v k = getRxQueueId w q := of_decide_eq_true hfound
    have hmem := List.mem_range.mp (List.mem_of_find?_eq_some hk)
    unfold getRxQueueId at hsome
    unfold maxQueuesPerVm at *
    omega
  · rintro rfl
    rw [Mediation.recv_getRxQueueId v hq]
    rfl

/-- Whatever the guests write, a frame that is sent to a VM is received by that VM and by no other one.
A VM in mediation mode is left out, which may ask for a queue of another VM. -/
theorem steering_isolated (s : Setup) (nic : FlowTable) (hm : s.macAddr.length = 6)
    (hn : s.numVms * maxQueuesPerVm < 0x10000) (flows : List EthFlow) (h : s.steering.Reachable flows) (w : ℕ)
    (hw : w < s.numVms) (hmode : s.modes[w]? ≠ some .mediation) (frame : EthItem) (hf : frame.IsFrame)
    (hd : frame.dst = s.mac w) :
    ∀ v < s.numVms, (Mediation.recv v (nic.pick flows frame)).isSome ↔ v = w := by
  intro v hv
  have haimed := Aimed.reachable h
  obtain ⟨f, hmem, hmatch, hpick⟩ := nic.of_match ⟨_, haimed.default w hw, default_matches hf hd _⟩
  obtain ⟨u, hu, q, etype, etypeMask, rfl, hq⟩ := haimed.own f hmem
  have hbound : s.numVms < 0x1000000000000 := by
    unfold maxQueuesPerVm at hn
    omega
  have huw : u = w := by
    apply intcrementMac_injective s.macAddr hm (Nat.lt_trans hu hbound) (Nat.lt_trans hw hbound)
    exact (rule_dst hm hf hmatch).symm.trans hd
  subst huw
  rw [hpick]
  exact recv_isSome hv hu hn (hq.resolve_left hmode)

def newest : FlowTable where
  pick flows frame := ((flows.reverse.find? fun f => f.matches frame).map (·.queue)).getD 0
  of_match := by
    rintro flows frame ⟨f, hf, hm⟩
    have hsome : (flows.reverse.find? fun f => f.matches frame).isSome := by
      rw [List.find?_isSome]
      exact ⟨f, List.mem_reverse.mpr hf, hm⟩
    obtain ⟨g, hg⟩ := Option.isSome_iff_exists.mp hsome
    have hmatch := List.find?_some hg
    refine ⟨g, List.mem_reverse.mp (List.mem_of_find?_eq_some hg), hmatch, ?_⟩
    rw [hg]
    rfl

def twoVms : Setup := ⟨[0x52, 0x54, 0x00, 0xFA, 0x00, 0xFF], [.vdpdk, .emulation], ⟨12, 20, 12, 2⟩⟩

def ptpFlow : List UInt8 :=
  List.replicate 12 0 ++ [5] ++ (List.replicate 12 0 ++ [0x88, 0xF7] ++ List.replicate 6 0) ++
    (List.replicate 12 0 ++ [0xFF, 0xFF] ++ List.replicate 6 0) ++ [1, 2, 0]

def ptpFrame (vm : ℕ) : EthItem := ⟨twoVms.mac vm, List.replicate 6 0, [0x88, 0xF7]⟩

theorem steering_isolated_ptp :
    ∃ flows, twoVms.steering.Reachable flows ∧ newest.pick flows (ptpFrame 0) = 2 ∧
      (∀ v < 2, (Mediation.recv v (newest.pick flows (ptpFrame 0))).isSome ↔ v = 0) ∧
      ∀ v < 2, (Mediation.recv v (newest.pick flows (ptpFrame 1))).isSome ↔ v = 1 := by
  have hs : twoVms.Step (initialFlows 2 twoVms.macAddr) _ := .flowCreate 0 0x88F7 2 ptpFlow true rfl (by decide)
  have hr : twoVms.steering.Reachable _ := .step (.start rfl) hs
  have hn : twoVms.numVms * maxQueuesPerVm < 0x10000 := by decide
  exact ⟨_, hr, by decide,
    steering_isolated twoVms newest rfl hn _ hr 0 (by decide) (by decide) _ ⟨rfl, rfl, rfl⟩ rfl,
    steering_isolated twoVms newest rfl hn _ hr 1 (by decide) (by decide) _ ⟨rfl, rfl, rfl⟩ rfl⟩

end Vmux.FlowSteering
