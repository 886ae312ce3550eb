import Vmux.DescriptorQueue

namespace Vmux.LanRx

open Bytes DescriptorQueue

structure Timestamp where
  time : ℕ
  tsL : ℕ
deriving DecidableEq, Repr

structure RxEnv where
  gltsynEna : ℕ → ℕ
  phcSample : ℕ
  beyond : ℕ → UInt8

structure RxClient where
  dcache : List Slot
  dbuffSize : ℕ
  hbuffSize : ℕ
  rxmax : ℕ
  crcStrip : Bool

/-- The locals of the loop in `lan_queue_rx::packet_received`. -/
structure RxPacket where
  data : List UInt8
  numDescs : ℕ
  i : ℕ
  timestamp : Timestamp

def byteAt (env : RxEnv) (data : List UInt8) (i : ℕ) : ℕ := (data.getD i (env.beyond i)).toNat

def be16At (env : RxEnv) (data : List UInt8) (i : ℕ) : ℕ :=
  byteAt env data i * 256 + byteAt env data (i + 1)

/-- `PTP_GLTSYN_ENA` as `e810_base_wrapper.h` defines it over again: an address, and no longer the low bit. -/
def ptpGltsynEna (i : ℕ) : ℕ := 0x00088808 + i * 0x4

def ptpShouldSampleRx (env : RxEnv) (data : List UInt8) : Bool :=
  -- the registers hold `val & 1`
  if ptpGltsynEna (env.gltsynEna 0 % 2) = 0 ∨ ptpGltsynEna (env.gltsynEna 1 % 2) = 0 then false
  else if be16At env data 12 = 0x0800 ∧ byteAt env data 23 = 17 then
    be16At env data 36 = 319 ∨ be16At env data 36 = 320
  else be16At env data 12 = 0x88F7

def timestampOf (env : RxEnv) (data : List UInt8) : Timestamp :=
  if ptpShouldSampleRx env data then ⟨env.phcSample, 1⟩ else ⟨0, 0⟩

def qword1 (desc : List UInt8) : ℕ := leNat (slice desc 8 8)

def pktAddr (desc : List UInt8) : ℕ := leNat (slice desc 0 8)

/-- The descriptor as `rx_desc_ctx::packet_received` leaves it for the write-back. -/
def receivedDesc (desc : List UInt8) (pktlen : ℕ) (ts : Timestamp) (last : Bool) : List UInt8 :=
  let d := overwrite desc 4 (leBytes 2 pktlen)
  let d := overwrite d 8 (leBytes 8 (qword1 d ||| 1 ||| pktlen <<< 38))
  let d := if ts.tsL = 0 then d else
    overwrite (overwrite (overwrite d 28 (leBytes 2 ts.time)) 30 (leBytes 2 (ts.time >>> 16))) 19 (leBytes 1 ts.tsL)
  if last then overwrite d 8 (leBytes 8 (qword1 d ||| 2 ||| 8)) else d

def chunk (s : RxClient) (k : RxPacket) : List UInt8 :=
  if k.i = k.numDescs - 1 then k.data.drop (s.dbuffSize * k.i)
  else slice k.data (s.dbuffSize * k.i) s.dbuffSize

def receive (env : RxEnv) (s : RxClient) (q : QueueBase) (data : List UInt8) :
    Except Fault (Option RxPacket) :=
  if s.dbuffSize = 0 then .error .divisionByZero
  else
    let numDescs := (data.length + s.dbuffSize - 1) / s.dbuffSize
    if !q.enabled then .ok none
    else if s.dcache.length < numDescs then .ok none
    else if numDescs = 0 then .ok none
    else .ok (some ⟨data, numDescs, 0, timestampOf env data⟩)

def resume (s : RxClient) (ctxs : Slot → DescCtx) (k : RxPacket) : Except Fault (Effect RxClient RxPacket) :=
  match s.dcache with
  | [] => .error .outOfBounds
  | p :: dcache =>
    let desc := (ctxs p).desc
    let part := chunk s k
    .ok {
      client := { s with dcache }
      descs := [(p, receivedDesc desc part.length k.timestamp (k.i = k.numDescs - 1))]
      write := some (p, pktAddr desc, part)
      next := if k.i + 1 < k.numDescs then some { k with i := k.i + 1 } else none }

def subclass : Subclass RxEnv (List UInt8) RxClient RxPacket where
  prepare _ := .prepared
  process _ s _ p := .ok { client := { s with dcache := s.dcache ++ [p] } }
  resume _ := resume
  receive := receive
  headWriteBack _ := none
  held := RxClient.dcache
  process_held := by
    rintro env s ctxs p e ⟨⟩
    simp [Effect.released]
  resume_held := by
    intro env s ctxs k e h
    cases hd : s.dcache with
    | nil => simp [resume, hd] at h
    | cons p dcache =>
      simp only [resume, hd, Except.ok.injEq] at h
      subst h
      simp [Effect.released]
  process_state := by
    rintro env s ctxs p ⟨⟩
  resume_state := by
    intro env s ctxs k
    unfold resume
    split <;> simp

end Vmux.LanRx
