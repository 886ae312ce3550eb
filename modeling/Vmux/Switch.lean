import Vmux.Bytes

namespace Vmux.Switch

open Bytes

/-- The one recipe of the emulated switch: it matches the ethertype only. -/
def recipe1 : List UInt8 := List.replicate 12 0x00 ++ [0xFF, 0xFF] ++ List.replicate 42 0x00

structure Rule where
  bytes : List UInt8
  dstQueue : ℕ
deriving DecidableEq, Repr

structure RuleElem where
  type : ℕ
  recipeId : ℕ
  act : ℕ
  hdrLen : ℕ
  hdr : List UInt8
deriving DecidableEq, Repr

def ruleElem (data : List UInt8) : RuleElem where
  type := get16 data 0
  recipeId := get16 data 4
  act := get32 data 8
  hdrLen := get16 data 14
  hdr := data.drop 16

namespace RuleElem

variable (r : RuleElem)

def actionType : ℕ := r.act % 4

def queueId : ℕ := r.act / 0x10 % 0x800

def Supported : Prop := r.type = 0 ∧ r.actionType = 1 ∧ r.recipeId = 0 ∧ r.hdrLen = recipe1.length

instance : Decidable r.Supported := inferInstanceAs (Decidable (_ ∧ _))

def etype : ℕ := beNat (slice r.hdr 12 2)

def masked : List UInt8 := List.zipWith (· &&& ·) recipe1 r.hdr

/-- The queue handed to the driver, truncated from `size_t` to `uint16_t`. -/
def dstQueue (vsi0FirstQueue : ℕ) : ℕ :=
  (r.queueId + 0x10000000000000000 - vsi0FirstQueue) % 0x10000000000000000 % 0x10000

end RuleElem

def addRule (rules : List Rule) (r : RuleElem) : List Rule :=
  if r.Supported then rules ++ [⟨r.masked, r.queueId⟩] else rules

def Rule.matches (rule : Rule) (data : List UInt8) : Bool :=
  (List.range recipe1.length).all fun i => recipe1.getD i 0 &&& data.getD i 0 = rule.bytes.getD i 0

def selectQueue (rules : List Rule) (data : List UInt8) (queue : ℕ) : ℕ :=
  if data.length < 14 then queue
  else match rules.find? fun rule => rule.matches data with
    | some rule => rule.dstQueue
    | none => queue

def maxQueuesPerVm : ℕ := 4

def getRxQueueId (vm queue : ℕ) : ℕ := (vm * maxQueuesPerVm + queue) % 0x10000

structure FlowRule where
  etype : ℕ
  queueId : ℕ
deriving DecidableEq, Repr

/-- `Dpdk::add_switch_rule`; `created` tells whether `generate_eth_flow` returns a flow. -/
def addSwitchRule (mediate : Bool) (vm : ℕ) (created : Bool) (etype dstQueue : ℕ) : Option FlowRule :=
  if !mediate then none
  else if created then some ⟨etype, getRxQueueId vm dstQueue⟩
  else none

end Vmux.Switch
