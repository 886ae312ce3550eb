import Vmux.AddressMap
import Vmux.DescriptorQueue

namespace Vmux.Registers

open AddressMap DescriptorQueue

def numQueues : ℕ := 1536
def numPfints : ℕ := 2048
def numRxdid : ℕ := 64

inductive GlprtCounter
  | bprcl | bptcl | crcerrs | gorcl | gotcl | illerrc | lxoffrxc | lxofftxc
  | lxonrxc | lxontxc | mlfc | mprcl | mptcl | mrfc | prc1023l | prc127l
  | prc1522l | prc255l | prc511l | prc64l | prc9522l | ptc1023l | ptc127l | ptc1522l
  | ptc255l | ptc511l | ptc64l | ptc9522l | rfc | rjc | rlec | roc
  | ruc | tdold | uprcl
deriving DecidableEq, Repr

def GlprtCounter.base : GlprtCounter → ℕ
  | bprcl => 0x381380 | bptcl => 0x381240 | crcerrs => 0x380100 | gorcl => 0x380000
  | gotcl => 0x380B40 | illerrc => 0x3801C0 | lxoffrxc => 0x3802C0 | lxofftxc => 0x381180
  | lxonrxc => 0x380280 | lxontxc => 0x381140 | mlfc => 0x380040 | mprcl => 0x381340
  | mptcl => 0x381200 | mrfc => 0x380080 | prc1023l => 0x380A00 | prc127l => 0x380940
  | prc1522l => 0x380A40 | prc255l => 0x380980 | prc511l => 0x3809C0 | prc64l => 0x380900
  | prc9522l => 0x380A80 | ptc1023l => 0x380C80 | ptc127l => 0x380BC0 | ptc1522l => 0x380CC0
  | ptc255l => 0x380C00 | ptc511l => 0x380C40 | ptc64l => 0x380B80 | ptc9522l => 0x380D00
  | rfc => 0x380AC0 | rjc => 0x380B00 | rlec => 0x380140 | roc => 0x380240
  | ruc => 0x380200 | tdold => 0x381280 | uprcl => 0x381300

/-- In the order of the source, which tests `GLPRT_UPRCL` twice. -/
def glprtCounters : List GlprtCounter :=
  [.bprcl, .bptcl, .crcerrs, .gorcl, .gotcl, .illerrc, .lxoffrxc, .lxofftxc, .lxonrxc, .lxontxc, .mlfc, .mprcl,
   .mptcl, .mrfc, .prc1023l, .prc127l, .prc1522l, .prc255l, .prc511l, .prc64l, .prc9522l, .ptc1023l,
   .ptc127l, .ptc1522l, .ptc255l, .ptc511l, .ptc64l, .ptc9522l, .rfc, .rjc, .rlec, .roc, .ruc, .tdold, .uprcl, .uprcl]

inductive GlvCounter
  | bprcl | bptcl | gorcl | gotcl | mprcl | mptcl | rdpc | tepc | uprcl | uptcl
deriving DecidableEq, Repr

def GlvCounter.base : GlvCounter → ℕ
  | bprcl => 0x3B6000 | bptcl => 0x30E000 | gorcl => 0x3B0000 | gotcl => 0x300000
  | mprcl => 0x3B4000 | mptcl => 0x30C000 | rdpc => 0x294C04 | tepc => 0x312000
  | uprcl => 0x3B2000 | uptcl => 0x30A000

def GlvCounter.stride : GlvCounter → ℕ
  | rdpc | tepc => 4
  | _ => 8

def glvCounters : List GlvCounter :=
  [.bprcl, .bptcl, .gorcl, .gotcl, .mprcl, .mptcl, .rdpc, .tepc, .uprcl, .uptcl]

instance neZeroThree : NeZero 3 := ⟨by decide⟩

instance neZeroFour : NeZero 4 := ⟨by decide⟩

/-- The arrays of `e810_regs` that a register access can index. -/
inductive RegArray
  | pfintItrn (i : Fin 3) | pfintDynCtln | qintTqctl | qtxEna | qtxTail | qintRqctl | glintCeqctl | qrxEna | qrxTail
  | flexRxdid (i : Fin 4) | qrxCtrl | qrxflxpCntxt | qtxCommHead | qrxContext | glintItr (i : Fin 3)
  | glprt (c : GlprtCounter) | glv (c : GlvCounter)
  | gltsynEna | gltsynShtime | gltsynShadj | gltsynIncval | qtxCommDbell
deriving DecidableEq, Repr

def RegArray.size : RegArray → ℕ
  | pfintItrn _ => numPfints
  | pfintDynCtln => numPfints - 1
  | qintTqctl | qtxTail | qintRqctl | qtxCommHead | qtxCommDbell => numQueues
  | qtxEna | glintCeqctl | qrxEna | qrxTail | qrxCtrl | qrxflxpCntxt | glintItr _ => 2048
  | flexRxdid _ => numRxdid
  | qrxContext => 8 * 2048
  | glprt _ => 8
  | glv c => if c = .bprcl ∨ c = .bptcl then 8 else 768
  | gltsynEna => 2
  | gltsynShtime => 6
  | gltsynShadj | gltsynIncval => 4

/-- The other members of `e810_regs` that a register access reads or writes. -/
inductive Reg
  | glgenRstctl | glgenStat | gllanRctl0 | pfintIcr0Ena | pfintIcr0 | glnvmSrctl | pfhmcErrorinfo | pfhmcErrordata
  | pfAtqba | pfAtqlen | pfAtqh | pfAtqt | pfArqba | pfArqlen | pfArqh | pfArqt
  | pfMbxAtqba | pfMbxAtqlen | pfMbxAtqh | pfMbxAtqt | pfMbxArqba | pfMbxArqlen | pfMbxArqh | pfMbxArqt
  | glintCtl | pfpeCcqphigh | pfpeCcqplow | pfpeCqptail | pfpeCqpdb | pfpeCcqpstatus
  | gltsynCmd | gltsynCmdSync | gltsynSyncDlay | gltsynHhDlay | pftsynSem | pfSbAtqbal | pfSbAtqbah
deriving DecidableEq, Repr

structure Regs where
  arr : RegArray → ℕ → ℕ
  reg : Reg → ℕ

namespace Regs

variable (r : Regs)

def set (x : Reg) (val : ℕ) : Regs := { r with reg := Function.update r.reg x val }

def store (a : RegArray) (i val : ℕ) : Regs :=
  { r with arr := Function.update r.arr a (Function.update (r.arr a) i val) }

/-- After the `memset` of `e810_bm::reset`. -/
def cleared : Regs := ⟨fun _ _ => 0, fun _ => 0⟩

end Regs

/-- The tables of queues that a register write can index. -/
inductive QueueTable
  | rxqs | txqs | ceqs
deriving DecidableEq, Repr

inductive Access
  | reg (a : RegArray) (i : ℕ)
  | queue (t : QueueTable) (i : ℕ)
deriving DecidableEq, Repr

def Access.InBounds : Access → Prop
  | reg a i => i < a.size
  | queue _ i => i < numQueues

instance : DecidablePred Access.InBounds
  | .reg _ _ => inferInstanceAs (Decidable (_ < _))
  | .queue _ _ => inferInstanceAs (Decidable (_ < _))

/-- A branch of `reg_mem_read32`. The first flexible word is cleared instead of being read. -/
inductive ReadAction
  | load (a : RegArray)
  | clear (a : RegArray)
  | rxdidFlags
  | phcTime
deriving DecidableEq, Repr

def ReadAction.arrays : ReadAction → List RegArray
  | load a | clear a => [a]
  | rxdidFlags | phcTime => []

def readRanges : List (Range ReadAction) :=
  [⟨0x160000, 0x160000 + (numPfints - 1) * 4 - 1, 4, .load .pfintDynCtln⟩,
   ⟨0x0E0000, 0x0E0000 + 16383 * 4, 4, .load .qtxCommHead⟩,
   ⟨0x3000004, 0x3000004 + 2047 * 4096, 4096, .load (.pfintItrn 0)⟩,
   ⟨0x3000008, 0x3000008 + 2047 * 4096, 4096, .load (.pfintItrn 1)⟩,
   ⟨0x300000C, 0x300000C + 2047 * 4096, 4096, .load (.pfintItrn 2)⟩,
   ⟨0x140000, 0x140000 + (2048 - 1) * 4, 4, .load .qintTqctl⟩,
   ⟨0x150000, 0x150000 + 2047 * 4, 4, .load .qintRqctl⟩,
   ⟨0x15C000, 0x15C000 + 2048 * 4, 1, .load .glintCeqctl⟩,
   ⟨0x120000, 0x120000 + 2047 * 4, 4, .load .qrxCtrl⟩,
   ⟨0x290000, 0x290000 + (2048 - 1) * 4, 4, .load .qrxTail⟩,
   ⟨0x154000, 0x154000 + 2047 * 4, 4, .load (.glintItr 0)⟩,
   ⟨0x156000, 0x156000 + 2047 * 4, 4, .load (.glintItr 1)⟩,
   ⟨0x158000, 0x158000 + 2047 * 4, 4, .load (.glintItr 2)⟩,
   ⟨0x280000, 0x280000, 4, .load .qrxContext⟩,
   ⟨0x480000, 0x480000 + 2047 * 4, 4, .load .qrxflxpCntxt⟩,
   ⟨0x45C800, 0x45C800 + 63 * 4, 4, .clear (.flexRxdid 0)⟩,
   ⟨0x45C900, 0x45C900 + 63 * 4, 4, .load (.flexRxdid 1)⟩,
   ⟨0x45CA00, 0x45CA00 + 63 * 4, 4, .load (.flexRxdid 2)⟩,
   ⟨0x45CB00, 0x45CB00 + 63 * 4, 4, .load (.flexRxdid 3)⟩,
   ⟨0x45D000, 0x45D000 + 63 * 4 + 4 * 256, 4, .rxdidFlags⟩] ++
  glprtCounters.map (fun c => ⟨c.base, c.base + 7 * 8, 8, .load (.glprt c)⟩) ++
  glvCounters.map (fun c => ⟨c.base, c.base + 768 * c.stride, c.stride, .load (.glv c)⟩)

/-- The two `case` ranges of the switch at the end of `reg_mem_read32`. -/
def readCases : List (Range ReadAction) :=
  [⟨0x0888C8, 0x0888C8 + 5 * 4, 4, .phcTime⟩,
   ⟨0x0888E0, 0x0888E0 + 5 * 4, 1, .load .gltsynShtime⟩]

inductive ReadReg
  | reg (r : Reg)
  | low (r : Reg)
  | high (r : Reg)
  | clearing (r : Reg)
  | elem (a : RegArray) (i : ℕ)
  | incval
  | const (val : ℕ)
deriving DecidableEq, Repr

def readSwitch : List (ℕ × ReadReg) :=
  [(0x16CC54, .const 0x22220000), (0x091000, .const 0), (0x460010, .const 0x20002000), (0x500800, .reg .pfpeCqpdb),
   (0x50BA5C, .const 0x80), (0x50BA60, .const 0x80), (0x50BA64, .const 0x80), (0x09DE74, .const 0x10),
   (0x50A100, .reg .pfpeCcqphigh), (0x50A000, .reg .pfpeCcqpstatus), (0x50A080, .reg .pfpeCcqplow),
   (0x500880, .reg .pfpeCqptail), (0x0B6008, .const 0xFFFFFFFF), (0x0B6100, .const 0xC0), (0x0B6108, .const 0xE0),
   (0x0B8180, .reg .glgenRstctl), (0x0B612C, .reg .glgenStat), (0x16C900, .reg .pfintIcr0Ena),
   (0x16CA00, .clearing .pfintIcr0), (0x09DD80, .const 0), (0x2941F8, .reg .gllanRctl0),
   (0x520400, .reg .pfhmcErrorinfo), (0x520500, .reg .pfhmcErrordata),
   (0x080000, .low .pfAtqba), (0x080100, .high .pfAtqba), (0x080200, .reg .pfAtqlen), (0x080300, .reg .pfAtqh),
   (0x080400, .reg .pfAtqt),
   (0x080080, .low .pfArqba), (0x080180, .high .pfArqba), (0x080280, .reg .pfArqlen), (0x080380, .reg .pfArqh),
   (0x080480, .reg .pfArqt), (0x1D2500, .const 0x06000000),
   (0x22E100, .low .pfMbxAtqba), (0x22E180, .high .pfMbxAtqba), (0x22E200, .reg .pfMbxAtqlen),
   (0x22E280, .reg .pfMbxAtqh), (0x22E300, .reg .pfMbxAtqt),
   (0x22E380, .low .pfMbxArqba), (0x22E400, .high .pfMbxArqba), (0x22E480, .reg .pfMbxArqlen),
   (0x22E500, .reg .pfMbxArqh), (0x22E580, .reg .pfMbxArqt), (0x09E880, .const 0), (0x0B8188, .const 0),
   (0x22FC00, .reg .pfSbAtqbal), (0x22FC80, .reg .pfSbAtqbah), (0x088810, .reg .gltsynCmd),
   (0x088814, .reg .gltsynCmdSync), (0x088818, .reg .gltsynSyncDlay), (0x08881C, .reg .gltsynHhDlay),
   (0x088880, .reg .pftsynSem), (0x088808, .elem .gltsynEna 0), (0x08880C, .elem .gltsynEna 1), (0x088918, .incval)]

/-- The array elements `reg_mem_read32` computes for an address. -/
def readAccesses (addr : ℕ) : List Access :=
  match lookup (readRanges ++ readCases) addr with
  | some r => r.target.arrays.map fun a => .reg a (r.index addr)
  | none => match readSwitch.lookup addr with
    | some (.elem a i) => [.reg a i]
    | _ => []

structure PtpClock where
  time : ℕ
  time0 : ℕ
  incval : ℕ
  sampleTx : ℕ → ℕ

def ReadAction.run (ptp : PtpClock) (regs : Regs) (i : ℕ) : ReadAction → ℕ × Regs
  | load a => (regs.arr a i, regs)
  | clear a => (0, regs.store a i 0)
  | rxdidFlags => (0x16, regs)
  | phcTime =>
    (if i ≤ 1 then ptp.time0 else if i ≤ 3 then ptp.time % 0x100000000 else ptp.time / 0x100000000 % 0x100000000, regs)

def ReadReg.run (ptp : PtpClock) (regs : Regs) : ReadReg → ℕ × Regs
  | reg r => (regs.reg r, regs)
  | low r => (regs.reg r % 0x100000000, regs)
  | high r => (regs.reg r / 0x100000000 % 0x100000000, regs)
  | clearing r => (regs.reg r, regs.set r 0)
  | elem a i => (regs.arr a i, regs)
  | incval => (ptp.incval % 0x100000000, regs)
  | const val => (val, regs)

def regMemRead32 (ptp : PtpClock) (regs : Regs) (addr : ℕ) : Except Fault (ℕ × Regs) :=
  if ∀ a ∈ readAccesses addr, a.InBounds then
    .ok (match lookup (readRanges ++ readCases) addr with
      | some r => r.target.run ptp regs (r.index addr)
      | none => match readSwitch.lookup addr with
        | some x => x.run ptp regs
        | none => (0, regs))
  else .error .outOfBounds

/-- What a register write makes the rest of the device do. -/
inductive Notify
  | tailUpdated (idx : ℕ) (rx : Bool)
  | qenaUpdated (idx : ℕ) (rx : Bool)
  | ceqQenaUpdated (idx : ℕ)
  | atqRegUpdated
  | cqpRegUpdated
  | createCqp
  | reset
  | phcWrite
  | setIncval (val : ℕ)
  | adjust (val : ℕ)
  | setEnabled (clock : ℕ)
deriving DecidableEq, Repr

inductive WriteAction
  | store (a : RegArray)
  | commDbell
  | rxTail
  | rxCtrl
  | tqctl
  | ceqctl
deriving DecidableEq, Repr

def writeRanges : List (Range WriteAction) :=
  [⟨0x160000, 0x160000 + (numPfints - 1) * 4, 4, .store .pfintDynCtln⟩,
   ⟨0x2C0000, 0x2C0000 + 2047 * 4, 4, .commDbell⟩,
   ⟨0x290000, 0x290000 + (256 - 1) * 4, 4, .rxTail⟩,
   ⟨0x120000, 0x120000 + 2047 * 4, 4, .rxCtrl⟩,
   ⟨0x3000004, 0x3000004 + 2047 * 4096, 4096, .store (.pfintItrn 0)⟩,
   ⟨0x3000008, 0x3000008 + 2047 * 4096, 4096, .store (.pfintItrn 1)⟩,
   ⟨0x300000C, 0x300000C + 2047 * 4096, 4096, .store (.pfintItrn 2)⟩,
   ⟨0x140000, 0x140000 + 16383 * 4, 4, .tqctl⟩,
   ⟨0x150000, 0x150000 + (2048 - 1) * 4, 4, .store .qintRqctl⟩,
   ⟨0x15C000, 0x15C000 + (2018 - 1) * 4, 4, .ceqctl⟩,
   ⟨0x154000, 0x154000 + 2047 * 4, 4, .store (.glintItr 0)⟩,
   ⟨0x156000, 0x156000 + 2047 * 4, 4, .store (.glintItr 1)⟩,
   ⟨0x158000, 0x158000 + 2047 * 4, 4, .store (.glintItr 2)⟩,
   ⟨0x280000, 0x280000 + 8 * 8192 + 2048 * 4 - 1, 4, .store .qrxContext⟩,
   ⟨0x480000, 0x480000 + 2047 * 4, 4, .store .qrxflxpCntxt⟩,
   ⟨0x45C800, 0x45C800 + 63 * 4, 4, .store (.flexRxdid 0)⟩,
   ⟨0x45C900, 0x45C900 + 63 * 4, 4, .store (.flexRxdid 1)⟩,
   ⟨0x45CA00, 0x45CA00 + 63 * 4, 4, .store (.flexRxdid 2)⟩,
   ⟨0x45CB00, 0x45CB00 + 63 * 4, 4, .store (.flexRxdid 3)⟩] ++
  glprtCounters.map (fun c => ⟨c.base, c.base + 7 * 8, 8, .store (.glprt c)⟩) ++
  glvCounters.map (fun c => ⟨c.base, c.base + 7 * c.stride, c.stride, .store (.glv c)⟩)

/-- The assignment in a `case` of `reg_mem_write32`. The low half of a 64-bit register is
joined with the high half of `h`. -/
inductive RegStore
  | set (r : Reg)
  | low (r h : Reg)
  | high (r : Reg)
deriving DecidableEq, Repr

def RegStore.apply (regs : Regs) (val : ℕ) : RegStore → Regs
  | set r => regs.set r val
  | low r h => regs.set r (val + regs.reg h / 0x100000000 * 0x100000000)
  | high r => regs.set r (val * 0x100000000 + regs.reg r % 0x100000000)

/-- The mailbox registers notify the firmware queue. -/
def writeSwitch : List (ℕ × RegStore × List Notify) :=
  [(0x50A000, .set .pfpeCcqpstatus, []), (0x50A100, .set .pfpeCcqphigh, []),
   (0x50A080, .set .pfpeCcqplow, [.createCqp]), (0x500880, .set .pfpeCqptail, []), (0x0B612C, .set .glgenStat, []),
   (0x16CC54, .set .glintCtl, []), (0x0B8180, .set .glgenRstctl, []), (0x0B6100, .set .glnvmSrctl, []),
   (0x16C900, .set .pfintIcr0Ena, []), (0x16CA00, .set .pfintIcr0, []),
   (0x080000, .low .pfAtqba .pfAtqba, [.atqRegUpdated]), (0x080100, .high .pfAtqba, [.atqRegUpdated]),
   (0x080200, .set .pfAtqlen, [.atqRegUpdated]), (0x080300, .set .pfAtqh, [.atqRegUpdated]),
   (0x080400, .set .pfAtqt, [.atqRegUpdated]),
   (0x080080, .low .pfArqba .pfAtqba, []), (0x080180, .high .pfArqba, []), (0x080280, .set .pfArqlen, []),
   (0x080380, .set .pfArqh, []), (0x080480, .set .pfArqt, []),
   (0x22E100, .low .pfMbxAtqba .pfMbxAtqba, [.atqRegUpdated]), (0x22E180, .high .pfMbxAtqba, [.atqRegUpdated]),
   (0x22E200, .set .pfMbxAtqlen, [.atqRegUpdated]), (0x22E280, .set .pfMbxAtqh, [.atqRegUpdated]),
   (0x22E300, .set .pfMbxAtqt, [.atqRegUpdated]),
   (0x22E380, .low .pfMbxArqba .pfMbxAtqba, []), (0x22E400, .high .pfMbxArqba, []), (0x22E480, .set .pfMbxArqlen, []),
   (0x22E500, .set .pfMbxArqh, []), (0x22E580, .set .pfMbxArqt, []),
   (0x22FC80, .set .pfSbAtqbah, []), (0x088810, .set .gltsynCmd, [])]

def pfgenCtrl : ℕ := 0x091000
def pfpeCqpdb : ℕ := 0x500800
def pfSbAtqbal : ℕ := 0x22FC00
def gltsynCmdSync : ℕ := 0x088814

/-- The two `case` ranges of the switch at the end of `reg_mem_write32`. -/
def writeCases : List (Range WriteAction) :=
  [⟨0x0888E0, 0x0888E0 + 5 * 4, 4, .store .gltsynShtime⟩,
   ⟨0x088908, 0x088908 + 3 * 4, 4, .store .gltsynShadj⟩]

def enaCases : List (ℕ × ℕ) := [(0x088808, 0), (0x08880C, 1)]

def selMaster (regs : Regs) : ℕ := regs.reg .gltsynCmd / 0x100 % 2

def ptpCmd (regs : Regs) : ℕ := regs.reg .gltsynCmd % 0x100

def ptpAdjust (regs : Regs) : ℕ :=
  regs.arr .gltsynShadj (2 * selMaster regs) * 0x100000000 + regs.arr .gltsynShadj (2 * selMaster regs + 1)

def initIncval (regs : Regs) : Regs :=
  (List.range 4).foldl (fun r i => r.store .gltsynIncval i (r.arr .gltsynShadj i)) regs

def cmdSync (regs : Regs) (val : ℕ) : Regs × List Notify :=
  if val = 3 ∧ ptpCmd regs = 3 then
    (initIncval regs,
      [.phcWrite, .setIncval (regs.arr .gltsynShadj 0 + regs.arr .gltsynShadj 1 * 0x100000000),
       .adjust (ptpAdjust regs)])
  else if val = 3 ∧ ptpCmd regs = 4 then (regs, [.adjust (ptpAdjust regs)])
  else (regs, [])

def cmdSyncAccesses (regs : Regs) (val : ℕ) : List Access :=
  let adjust : List Access := [.reg .gltsynShadj (2 * selMaster regs), .reg .gltsynShadj (2 * selMaster regs + 1)]
  if val = 3 ∧ ptpCmd regs = 3 then
    .reg .gltsynShtime 0 ::
      (List.range 4).flatMap (fun i => [.reg .gltsynShadj i, .reg .gltsynIncval i]) ++ adjust
  else if val = 3 ∧ ptpCmd regs = 4 then adjust
  else []

def sbAtqbal (ptp : PtpClock) (regs : Regs) (val : ℕ) : Regs :=
  if val / 0x80000000 % 2 = 1 then
    let ts := ptp.sampleTx (val / 0x1000000 % 16) * 0x100 % 0x10000000000000000
    (regs.set .pfSbAtqbal (ts / 0x100000000 % 0x100 * 0x10000)).set .pfSbAtqbah (ts % 0x100000000)
  else regs.set .pfSbAtqbal val

def WriteAction.run (regs : Regs) (i val : ℕ) : WriteAction → Regs × List Notify
  | store a => (regs.store a i val, [])
  | commDbell => ((regs.store .qtxCommDbell i val).store .qtxTail i val, [.tailUpdated i false])
  | rxTail => (regs.store .qrxTail i (val % 0x2000), [.tailUpdated i true])
  | rxCtrl =>
    ((regs.store .qrxCtrl i ((val + 4) % 0x100000000)).store .qrxEna i val, [.qenaUpdated i true])
  | tqctl => (regs.store .qintTqctl i val, [.qenaUpdated i false])
  | ceqctl => (regs.store .glintCeqctl i val, [.ceqQenaUpdated i])

/-- `rxqs[idx]` is enabled by the write, and then the tail register is passed on as an index. -/
def enablesRx (rxEnabled : ℕ → Bool) (i val : ℕ) : Prop := val % 2 = 1 ∧ rxEnabled i = false

instance (rxEnabled : ℕ → Bool) (i val : ℕ) : Decidable (enablesRx rxEnabled i val) :=
  inferInstanceAs (Decidable (_ ∧ _))

def tailIndex (regs : Regs) (i : ℕ) : ℕ := regs.arr .qrxTail i % 0x10000

/-- The elements a branch indexes itself and through `tail_updated` and the two `qena_updated`. -/
def WriteAction.accesses (regs : Regs) (rxEnabled : ℕ → Bool) (i val : ℕ) : WriteAction → List Access
  | store a => [.reg a i]
  | commDbell => [.reg .qtxCommDbell i, .reg .qtxTail i, .queue .txqs i]
  | rxTail => [.reg .qrxTail i, .queue .rxqs i]
  | rxCtrl =>
    [.reg .qrxCtrl i, .reg .qrxEna i, .queue .rxqs i] ++
      if enablesRx rxEnabled i val then [.reg .qrxTail i, .queue .rxqs (tailIndex regs i)] else []
  | tqctl => [.reg .qintTqctl i, .reg .qtxEna i, .queue .txqs i]
  | ceqctl => [.reg .glintCeqctl i, .reg .pfintDynCtln i, .queue .ceqs i]

def writeAccesses (regs : Regs) (rxEnabled : ℕ → Bool) (addr val : ℕ) : List Access :=
  match lookup (writeRanges ++ writeCases) addr with
  | some r => r.target.accesses regs rxEnabled (r.index addr) val
  | none =>
    if addr = gltsynCmdSync then cmdSyncAccesses regs val
    else (enaCases.lookup addr).toList.map fun i => .reg .gltsynEna i

def regMemWrite32 (ptp : PtpClock) (rxEnabled : ℕ → Bool) (regs : Regs) (addr val : ℕ) :
    Except Fault (Regs × List Notify) :=
  if ∀ a ∈ writeAccesses regs rxEnabled addr val, a.InBounds then
    .ok (match lookup (writeRanges ++ writeCases) addr with
      | some r => r.target.run regs (r.index addr) val
      | none => match writeSwitch.lookup addr with
        | some (st, calls) => (st.apply regs val, calls)
        | none =>
          if addr = pfgenCtrl then (regs, if val % 2 = 1 then [.reset] else [])
          else if addr = pfpeCqpdb then
            (regs.set .pfpeCqpdb val,
              if val ≠ 0 ∧ regs.reg .pfpeCqptail < val % 0x400 then [.cqpRegUpdated] else [])
          else if addr = pfSbAtqbal then (sbAtqbal ptp regs val, [])
          else if addr = gltsynCmdSync then cmdSync regs val
          else match enaCases.lookup addr with
            | some i => (regs.store .gltsynEna i (val % 2), [.setEnabled i])
            | none => (regs, []))
  else .error .outOfBounds

end Vmux.Registers
