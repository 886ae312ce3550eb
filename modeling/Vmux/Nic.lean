import Vmux.LanRx
import Vmux.LanTx
import Vmux.Registers
import Vmux.SwitchRules

namespace Vmux.Nic

open Bytes Transitions DescriptorQueue AdminQueue LanRx LanTx Registers SwitchRules

structure DeviceEnv where
  mem : ℕ → UInt8
  mapped : ℕ → ℕ → Bool
  admin : AdminEnv
  rx : RxEnv
  tx : TxEnv
  ptp : PtpClock

def DeviceEnv.env {ε : Type} (e : DeviceEnv) (client : ε) : Env ε := ⟨e.mem, e.mapped, client⟩

/-- Code that is still to run, innermost call first: what a queue has on its own stack, or the
`tail_updated` after a receive queue was enabled. -/
inductive Call
  | atq
  | rx (i : ℕ)
  | tx (i : ℕ)
  | tailUpdated (idx : ℕ)
deriving DecidableEq, Repr

/--
The queues of `e810_bm` and what they share. `qtx_ena`, the transmit contexts and the switch are
part of the client of `pf_atq`, whose commands write them. The RDMA queues are left out: no
register of the queues below reaches them.
-/
structure Device where
  regs : Regs
  atq : Config AdminClient Unit
  mbx : QueueBase
  rxqs : ℕ → Config RxClient RxPacket
  txqs : ℕ → Config TxClient Unit
  calls : List Call

def qenaStat : ℕ := 4

def atqLen (regs : Regs) : ℕ := regs.reg .pfAtqlen % 0x400

def atqEnabled (regs : Regs) : Bool := regs.reg .pfAtqlen / 0x80000000 % 2 = 1

/-- The eight words of `QRX_CONTEXT` that belong to a queue. -/
def rxContext (regs : Regs) (i : ℕ) : List UInt8 :=
  (List.range 8).flatMap fun w => leBytes 4 (regs.arr .qrxContext (w * 2048 + i))

def rxHead (ctx : List UInt8) : ℕ := get16 ctx 0 % 0x2000
def rxBase (ctx : List UInt8) : ℕ := get64 ctx 4 % 0x200000000000000 * 128 % 0x10000000000000000
def rxLen (ctx : List UInt8) : ℕ := get16 ctx 11 / 2 % 0x2000
def rxDbuffSize (ctx : List UInt8) : ℕ := get16 ctx 12 / 0x40 % 0x80 * 128
def rxHbuffSize (ctx : List UInt8) : ℕ := get16 ctx 13 / 0x20 % 0x20 * 64
def rxDtype (ctx : List UInt8) : ℕ := get16 ctx 13 / 0x400 % 4
def rxLongdesc (ctx : List UInt8) : Bool := get16 ctx 13 / 0x1000 % 2 = 1
def rxCrcStrip (ctx : List UInt8) : Bool := get16 ctx 13 / 0x2000 % 2 = 1
def rxMax (ctx : List UInt8) : ℕ := get32 ctx 21 / 0x40 % 0x4000 * 128

def txBase (ctx : List UInt8) : ℕ := get64 ctx 0 % 0x200000000000000 * 128 % 0x10000000000000000
def txLen (ctx : List UInt8) : ℕ := get32 ctx 16 / 0x80 % 0x4000
def txHwb (ctx : List UInt8) : Bool := get64 ctx 12 / 0x20 % 2 = 1

section

variable {σ κ : Type}

/-- `queue_base::reg_updated`. -/
def regUpdated (c : Config σ κ) : Config σ κ :=
  { c with stack := (if c.q.enabled then trigger κ else []) ++ c.stack }

def disable (c : Config σ κ) : Config σ κ := { c with q := { c.q with enabled := false } }

end

/-- `queue_admin_tx::reg_updated`. -/
def atqRegUpdated (regs : Regs) (c : Config AdminClient Unit) : Config AdminClient Unit :=
  regUpdated { c with q := { c.q with
    base := regs.reg .pfAtqba
    len := atqLen regs
    enabled := atqEnabled regs } }

/-- `initialize` and the rest of `enable` for a receive queue. -/
def rxEnable (ctx : List UInt8) (c : Config RxClient RxPacket) : Except Fault (Config RxClient RxPacket) :=
  if !rxLongdesc ctx then .error .abort
  else if rxDtype ctx ≠ 0 then .error .abort
  else .ok (regUpdated { c with
    q := { c.q with
      regHead := rxHead ctx
      base := rxBase ctx
      len := rxLen ctx
      descLen := 32
      enabled := true }
    client := { c.client with
      dbuffSize := rxDbuffSize ctx
      hbuffSize := rxHbuffSize ctx
      rxmax := rxMax ctx
      crcStrip := rxCrcStrip ctx } })

def txEnable (ctx : List UInt8) (c : Config TxClient Unit) : Config TxClient Unit :=
  regUpdated { c with
    q := { c.q with
      base := txBase ctx
      len := txLen ctx
      enabled := true }
    client := { c.client with hwb := txHwb ctx } }

namespace Device

variable (d : Device)

/-- The registers are the same words as the head and tail of the queues. -/
def setRegs (regs : Regs) : Device :=
  { d with
    regs
    atq := { d.atq with q := { d.atq.q with regHead := regs.reg .pfAtqh, regTail := regs.reg .pfAtqt } }
    mbx := { d.mbx with regHead := regs.reg .pfMbxAtqh, regTail := regs.reg .pfMbxAtqt }
    rxqs := fun i => { d.rxqs i with q := { (d.rxqs i).q with regTail := regs.arr .qrxTail i } }
    txqs := fun i => { d.txqs i with q := { (d.txqs i).q with regTail := regs.arr .qtxCommDbell i } } }

def setAtq (c : Config AdminClient Unit) : Device :=
  { d with
    atq := c
    regs := (d.regs.set .pfAtqh c.q.regHead).set .gllanRctl0 c.client.dev.gllanRctl0 }

def setQtxEna (i val : ℕ) : Device :=
  { d with atq := { d.atq with client := { d.atq.client with dev := { d.atq.client.dev with
    qtxEna := Function.update d.atq.client.dev.qtxEna i val } } } }

def setRx (i : ℕ) (c : Config RxClient RxPacket) : Device := { d with rxqs := Function.update d.rxqs i c }

def setTx (i : ℕ) (c : Config TxClient Unit) : Device := { d with txqs := Function.update d.txqs i c }

def push (calls : List Call) : Device := { d with calls := calls ++ d.calls }

def rxTailUpdated (i : ℕ) : Device :=
  if (d.rxqs i).q.enabled then (d.setRx i (regUpdated (d.rxqs i))).push [.rx i] else d

def txTailUpdated (i : ℕ) : Device :=
  if (d.txqs i).q.enabled then (d.setTx i (regUpdated (d.txqs i))).push [.tx i] else d

/-- `qena_updated` for a receive queue: once it is enabled, its tail is passed on as an index. -/
def rxQenaUpdated (i : ℕ) : Except Fault Device :=
  let ena := d.regs.arr .qrxEna i
  if ena % 2 = 1 ∧ !(d.rxqs i).q.enabled then do
    let c ← rxEnable (rxContext d.regs i) (d.rxqs i)
    .ok ({ d with regs := d.regs.store .qrxEna i (ena ||| qenaStat) }.setRx i c |>.push
      [.rx i, .tailUpdated (tailIndex d.regs i)])
  else if ena % 2 = 0 ∧ (d.rxqs i).q.enabled then
    .ok ({ d with regs := d.regs.store .qrxEna i (ena - ena / qenaStat % 2 * qenaStat) }.setRx i (disable (d.rxqs i)))
  else .ok d

def txQenaUpdated (i : ℕ) : Device :=
  let ena := d.atq.client.dev.qtxEna i
  if ena % 2 = 1 ∧ !(d.txqs i).q.enabled then
    (d.setQtxEna i (ena ||| qenaStat)).setTx i (txEnable (d.atq.client.dev.ctxAddr i) (d.txqs i)) |>.push [.tx i]
  else if ena % 2 = 0 ∧ (d.txqs i).q.enabled then
    (d.setQtxEna i (ena - ena / qenaStat % 2 * qenaStat)).setTx i (disable (d.txqs i))
  else d

/-- `e810_bm::reset`. -/
def reset : Device :=
  setRegs
    { d with
      atq := { d.atq with
        q := d.atq.q.reset
        client := { d.atq.client with dev := { d.atq.client.dev with gllanRctl0 := 0, qtxEna := fun _ => 0 } } }
      rxqs := fun i => { d.rxqs i with
        q := (d.rxqs i).q.reset
        client := { (d.rxqs i).client with dcache := [] } }
      txqs := fun i => { d.txqs i with
        q := (d.txqs i).q.reset
        client := { (d.txqs i).client with
          tso := { (d.txqs i).client.tso with tsoOff := 0, tsoLen := 0 }
          readySegments := [] } } }
    .cleared

def notify : Notify → Except Fault Device
  | .tailUpdated i true => .ok (d.rxTailUpdated i)
  | .tailUpdated i false => .ok (d.txTailUpdated i)
  | .qenaUpdated i true => d.rxQenaUpdated i
  | .qenaUpdated i false => .ok (d.txQenaUpdated i)
  | .atqRegUpdated => .ok ({ d with atq := Nic.atqRegUpdated d.regs d.atq }.push [.atq])
  | .reset => .ok d.reset
  | _ => .ok d

end Device

/-- The transmit queues for which `qena_updated` was called. -/
def enabledTxqs (log : List Event) : List ℕ :=
  log.filterMap fun e => match e with
    | .call (.qenaUpdated i) => some i
    | _ => none

namespace Device

variable (env : DeviceEnv) (d : Device)

/-- Run one command of a queue, which stays at the front until its stack is empty. -/
def run : Call → Except Fault Device
  | .atq => match d.atq.stack with
    | [] => .ok d
    | cmd :: rest => do
      let c ← exec AdminQueue.subclass (env.env env.admin) { d.atq with stack := rest } cmd
      .ok ((enabledTxqs (c.log.drop d.atq.log.length)).foldl txQenaUpdated ((d.setAtq c).push [.atq]))
  | .rx i => match (d.rxqs i).stack with
    | [] => .ok d
    | cmd :: rest => do
      let c ← exec LanRx.subclass (env.env env.rx) { d.rxqs i with stack := rest } cmd
      .ok ((d.setRx i c).push [.rx i])
  | .tx i => match (d.txqs i).stack with
    | [] => .ok d
    | cmd :: rest => do
      let c ← exec LanTx.subclass (env.env env.tx) { d.txqs i with stack := rest } cmd
      .ok ((d.setTx i c).push [.tx i])
  | .tailUpdated idx => if Registers.numQueues ≤ idx then .error .outOfBounds else .ok (d.rxTailUpdated idx)

def regWrite (addr val : ℕ) : Except Fault Device := do
  let r ← regMemWrite32 env.ptp (fun i => (d.rxqs i).q.enabled) d.regs addr val
  r.2.foldlM notify (d.setRegs r.1)

/-- `lan::packet_received`. -/
def packetReceived (hint : Option ℕ) (data : List UInt8) : Except Fault Device :=
  let queue := packetQueue d.atq.client.dev hint data
  if Registers.numQueues ≤ queue then .error .outOfBounds
  else if !(d.rxqs queue).q.enabled then .ok d
  else do
    let c ← receive LanRx.subclass (env.env env.rx) (d.rxqs queue) data
    .ok ((d.setRx queue c).push [.rx queue])

end Device

structure Unused {ε ι σ κ : Type} (S : Subclass ε ι σ κ) (c : Config σ κ) : Prop where
  disabled : c.q.enabled = false
  first_pos : c.q.activeFirstPos = 0
  first_idx : c.q.activeFirstIdx = 0
  cnt : c.q.activeCnt = 0
  empty : ∀ p, (c.q.ctxs p).state = .empty
  held : S.held c.client = []
  stack : c.stack = []
  log : c.log = []

/-- After the constructor of `e810_bm`, which leaves some members without a value. -/
structure Fresh (d : Device) : Prop where
  regs : d.regs = .cleared
  atq : Unused AdminQueue.subclass d.atq
  mbx : d.mbx.enabled = false
  rxqs : ∀ i, Unused LanRx.subclass (d.rxqs i)
  txqs : ∀ i, Unused LanTx.subclass (d.txqs i)
  wired : d.setRegs .cleared = d
  dev : d.atq.client.dev.gllanRctl0 = 0 ∧ d.atq.client.dev.qtxEna = fun _ => 0
  calls : d.calls = []

def freshQueue (descLen : ℕ) : QueueBase where
  ctxs _ := ⟨.empty, 0, [], []⟩
  activeFirstPos := 0
  activeFirstIdx := 0
  activeCnt := 0
  base := 0
  len := 0
  regHead := 0
  regTail := 0
  enabled := false
  descLen := descLen

/-- A fresh device whose members without a value are zero. -/
def zeroed : Device where
  regs := .cleared
  atq := ⟨freshQueue 32, ⟨⟨0, 0, staticNodes + 1, fun _ => none, [], [], fun _ => [], fun _ => 0⟩, []⟩, [], []⟩
  mbx := freshQueue 32
  rxqs _ := ⟨freshQueue 32, ⟨[], 0, 0, 0, false⟩, [], []⟩
  txqs _ := ⟨freshQueue 16, ⟨⟨0, 0, []⟩, [], false, 0⟩, [], []⟩
  calls := []

theorem zeroed_fresh : Fresh zeroed :=
  ⟨rfl, ⟨rfl, rfl, rfl, rfl, fun _ => rfl, rfl, rfl, rfl⟩, rfl,
    fun _ => ⟨rfl, rfl, rfl, rfl, fun _ => rfl, rfl, rfl, rfl⟩,
    fun _ => ⟨rfl, rfl, rfl, rfl, fun _ => rfl, rfl, rfl, rfl⟩, rfl, ⟨rfl, rfl⟩, rfl⟩

inductive Input
  | run
  | write (addr val : ℕ)
  | packet (hint : Option ℕ) (data : List UInt8)

/-- A pending call runs, or the guest or the wire acts on a device at rest. -/
inductive Step (d : Device) : Input → Device → Prop
  | run {d' : Device} (env : DeviceEnv) (call : Call) (rest : List Call) (hs : d.calls = call :: rest)
      (h : Device.run env { d with calls := rest } call = .ok d') : Step d .run d'
  | write {d' : Device} (env : DeviceEnv) (addr val : ℕ) (hv : val < 0x100000000) (hs : d.calls = [])
      (h : d.regWrite env addr val = .ok d') : Step d (.write addr val) d'
  | packet {d' : Device} (env : DeviceEnv) (hint : Option ℕ) (data : List UInt8) (hs : d.calls = [])
      (h : d.packetReceived env hint data = .ok d') : Step d (.packet hint data) d'

def device : Machine Device where
  start := Fresh
  step d d' := ∃ x, Step d x d'

end Vmux.Nic
