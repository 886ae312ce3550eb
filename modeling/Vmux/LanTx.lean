import Vmux.Checksums
import Vmux.QueueSteps

namespace Vmux.LanTx

open Bytes Checksums DescriptorQueue

@[irreducible] def mtu : ℕ := 9024

def dtypeData : ℕ := 0
def dtypeCtx : ℕ := 1
def dtypeDescDone : ℕ := 0xF

def dtype (d1 : ℕ) : ℕ := d1 % 0x10

/-- Bit 0 of the command field of a context descriptor. -/
def ctxTso (d1 : ℕ) : Bool := d1 / 0x10 % 2 = 1
def ctxMss (d1 : ℕ) : ℕ := d1 / 0x4000000000000 % 0x4000

def cmdEop (d1 : ℕ) : Bool := d1 / 0x10 % 2 = 1
def cmdL4t (d1 : ℕ) : ℕ := d1 / 0x1000 % 4
def l4tTcp : ℕ := 1
def l4tUdp : ℕ := 3
def maclen (d1 : ℕ) : ℕ := d1 / 0x10000 % 0x80 * 2
def iplen (d1 : ℕ) : ℕ := d1 / 0x800000 % 0x80 * 4
def l4len (d1 : ℕ) : ℕ := d1 / 0x40000000 % 0x10 * 4

/-- `TX_BUF_SZ`, as the search for the end of the packet decodes it. -/
def txBufSz (d1 : ℕ) : ℕ := d1 / 0x400000000 % 0x4000

/-- The same field where the source only truncates it to `uint16_t`. -/
def pktLen16 (d1 : ℕ) : ℕ := d1 / 0x400000000 % 0x10000

/-- An entry of `ready_segments`: the two words of its descriptor and its data buffer. -/
structure Segment where
  bufAddr : ℕ
  d1 : ℕ
  data : List UInt8
deriving DecidableEq, Repr

structure TsoState where
  tsoOff : ℕ
  tsoLen : ℕ
  pktbuf : List UInt8
deriving DecidableEq, Repr

/-- What a leading context descriptor, if there is one, says about the unit. -/
structure Lead where
  dSkip : ℕ
  tso : Bool
  mss : ℕ
deriving DecidableEq, Repr

def lead (s : Segment) : Lead :=
  if dtype s.d1 = dtypeCtx then ⟨1, ctxTso s.d1, ctxMss s.d1⟩ else ⟨0, false, 0⟩

/-- Results of the loop that looks for the EOP descriptor. -/
structure EopScan where
  dcnt : ℕ
  eop : Bool
  l4t : ℕ
  maclen : ℕ
  iplen : ℕ
  l4len : ℕ
  totalLen : ℕ
deriving DecidableEq, Repr

def EopScan.start (dSkip : ℕ) : EopScan := ⟨dSkip, false, 0, 0, 0, 0, 0⟩

/-- The part of an iteration that depends on the EOP bit. -/
def EopScan.next (r : EopScan) (d1 : ℕ) : EopScan where
  dcnt := r.dcnt + 1
  eop := cmdEop d1
  l4t := cmdL4t d1
  maclen := if cmdEop d1 then LanTx.maclen d1 else r.maclen
  iplen := if cmdEop d1 then LanTx.iplen d1 else r.iplen
  l4len := if cmdEop d1 then LanTx.l4len d1 else r.l4len
  totalLen := r.totalLen + txBufSz d1

def eopScan : List Segment → EopScan → Except Fault EopScan
  | [], r => .ok r
  | s :: rest, r =>
    if r.eop then .ok r
    else if dtype s.d1 ≠ dtypeData then .error .abort
    else eopScan rest (r.next s.d1)

/-- The calls of `EthSendTso` for the segments of a unit, up to the first refusal. -/
def hardwareTso (accept : ℕ → Bool) (r : EopScan) (mss : ℕ) : List Segment → ℕ → List Output × Bool
  | [], _ => ([], true)
  | s :: rest, i =>
    let out := Output.ethSendTso (s.data.take (pktLen16 s.d1)) rest.isEmpty r.maclen r.iplen r.l4len mss (accept i)
    if accept i then
      let t := hardwareTso accept r mss rest (i + 1)
      (out :: t.1, t.2)
    else ([out], false)

structure Copy where
  dcnt : ℕ
  off : ℕ
  tso : TsoState
deriving DecidableEq, Repr

/-- The body of the copy loop: one `memcpy` into `pktbuf`. -/
def copySegment (dataLimit : ℕ) (s : Segment) (off : ℕ) (t : TsoState) : Except Fault TsoState :=
  let pktLen := pktLen16 s.d1
  if off ≤ t.tsoOff ∧ off + pktLen > t.tsoOff then
    let stop := min (off + pktLen) dataLimit
    if stop < t.tsoOff ∨ s.data.length < stop - off ∨ mtu < t.tsoLen + (stop - t.tsoOff) then .error .outOfBounds
    else .ok {
      tsoOff := stop
      tsoLen := t.tsoLen + (stop - t.tsoOff)
      pktbuf := overwrite t.pktbuf t.tsoLen (slice s.data (t.tsoOff - off) (stop - t.tsoOff)) }
  else .ok t

def copyLoop (dataLimit : ℕ) : List Segment → Copy → Except Fault Copy
  | [], r => .ok r
  | s :: rest, r =>
    if dataLimit ≤ r.off then .ok r
    else do
      let tso ← copySegment dataLimit s r.off r.tso
      copyLoop dataLimit rest { dcnt := r.dcnt + 1, off := r.off + pktLen16 s.d1, tso }

/-- A call of `trigger_tx_packet` that returns true. -/
structure Sent where
  tso : TsoState
  popped : ℕ
  calls : List Output
deriving DecidableEq, Repr

def dataLimit (l : Lead) (r : EopScan) (t : TsoState) : ℕ :=
  if l.tso then min (if t.tsoOff = 0 then r.maclen + r.iplen + r.l4len + l.mss else t.tsoOff + l.mss) r.totalLen
  else r.totalLen

def sendPlain (r : EopScan) (c : Copy) : Except Fault Sent :=
  let l4Off := r.maclen + r.iplen
  let t := c.tso
  if (r.l4t = l4tTcp ∨ r.l4t = l4tUdp) ∧ t.tsoLen < l4Off then .error .outOfBounds
  else
    let pktbuf :=
      if r.l4t = l4tTcp then xsumTcp t.pktbuf l4Off (t.tsoLen - l4Off)
      else if r.l4t = l4tUdp then xsumUdp t.pktbuf l4Off (t.tsoLen - l4Off)
      else t.pktbuf
    .ok ⟨⟨0, 0, pktbuf⟩, c.dcnt, [.ethSend (pktbuf.take t.tsoLen)]⟩

def sendTso (mss : ℕ) (r : EopScan) (c : Copy) : Except Fault Sent :=
  let t := c.tso
  let hdrlen := r.maclen + r.iplen + r.l4len
  let iplen := r.iplen % 0x100
  let paylen := min (sub32 t.tsoLen hdrlen) mss
  if mtu < r.maclen + iplen + r.l4len + paylen then .error .outOfBounds
  else
    let frame := xsumTcpipTso t.pktbuf r.maclen iplen r.l4len paylen
    let pktbuf := tsoPostupdateHeader frame r.maclen iplen paylen
    let calls := [.ethSend (frame.take t.tsoLen)]
    if t.tsoOff < r.totalLen then .ok ⟨⟨t.tsoOff, hdrlen, pktbuf⟩, 0, calls⟩
    else .ok ⟨⟨0, 0, pktbuf⟩, c.dcnt, calls⟩

/-- The rest of `trigger_tx_packet` once the end of the unit is known. -/
def sendUnit (accept : ℕ → Bool) (t : TsoState) (segs : List Segment) (l : Lead) (r : EopScan) : Except Fault Sent :=
  if !l.tso ∧ mtu < r.totalLen then .error .abort
  else
    let hw := hardwareTso accept r l.mss ((segs.take r.dcnt).drop l.dSkip) l.dSkip
    if l.tso ∧ t.tsoLen = 0 ∧ t.tsoOff = 0 ∧ hw.2 then .ok ⟨t, r.dcnt, hw.1⟩
    else do
      let c ← copyLoop (dataLimit l r t) (segs.drop l.dSkip) ⟨l.dSkip, 0, t⟩
      if mtu < c.tso.tsoLen then .error .abort
      else if l.tso then
        let s ← sendTso l.mss r c
        .ok { s with calls := (if t.tsoLen = 0 ∧ t.tsoOff = 0 then hw.1 else []) ++ s.calls }
      else sendPlain r c

/-- `none` is the result false, which leaves the queue as it was. -/
def triggerTxPacket (accept : ℕ → Bool) (t : TsoState) (segs : List Segment) : Except Fault (Option Sent) :=
  match segs with
  | [] => .ok none
  | s :: _ => do
    let r ← eopScan (segs.drop (lead s).dSkip) (.start (lead s).dSkip)
    if !r.eop then .ok none
    else
      let sent ← sendUnit accept t segs (lead s) r
      .ok (some sent)

structure TxClient where
  tso : TsoState
  readySegments : List Slot
  hwb : Bool
  hwbAddr : ℕ

/-- Which calls of `EthSendTso` during the next `trigger_tx_packet` the backend accepts. -/
structure TxEnv where
  accept : ℕ → Bool

def cmdTypeOffsetBsz (desc : List UInt8) : ℕ := leNat (slice desc 8 8)

def bufAddr (desc : List UInt8) : ℕ := leNat (slice desc 0 8)

def segment (x : DescCtx) : Segment := ⟨bufAddr x.desc, cmdTypeOffsetBsz x.desc, x.data⟩

def doneDesc (desc : List UInt8) : List UInt8 := overwrite desc 8 (leBytes 8 dtypeDescDone)

def prepare (desc : List UInt8) : Prepare :=
  let d1 := cmdTypeOffsetBsz desc
  if dtype d1 = dtypeData then .dataFetch (bufAddr desc) (pktLen16 d1)
  else if dtype d1 = dtypeCtx then .prepared
  else .abort

/-- One turn of the loop in `trigger_tx`. -/
def triggerTx (env : TxEnv) (s : TxClient) (ctxs : Slot → DescCtx) : Except Fault (Effect TxClient Unit) := do
  match ← triggerTxPacket env.accept s.tso (s.readySegments.map fun p => segment (ctxs p)) with
  | none => .ok { client := s }
  | some sent =>
    let finished := s.readySegments.take sent.popped
    .ok {
      client := { s with tso := sent.tso, readySegments := s.readySegments.drop sent.popped }
      descs := finished.map fun p => (p, doneDesc (ctxs p).desc)
      finished
      next := some ()
      calls := sent.calls }

def process (s : TxClient) (p : Slot) : Effect TxClient Unit where
  client := { s with readySegments := s.readySegments ++ [p] }
  next := some ()

theorem eopScan_error {segs : List Segment} {r : EopScan} {f : Fault} (h : eopScan segs r = .error f) :
    f = .abort := by
  induction segs generalizing r with
  | nil => simp [eopScan] at h
  | cons s rest ih =>
    unfold eopScan at h
    split at h
    · cases h
    · split at h
      · cases h
        rfl
      · exact ih h

theorem copySegment_error {limit off : ℕ} {s : Segment} {t : TsoState} {f : Fault}
    (h : copySegment limit s off t = .error f) : f = .outOfBounds := by
  unfold copySegment at h
  dsimp only at h
  split at h
  · split at h <;> cases h
    rfl
  · cases h

theorem copyLoop_error {limit : ℕ} {segs : List Segment} {r : Copy} {f : Fault}
    (h : copyLoop limit segs r = .error f) : f = .outOfBounds := by
  induction segs generalizing r with
  | nil => simp [copyLoop] at h
  | cons s rest ih =>
    unfold copyLoop at h
    split at h
    · cases h
    · rcases bind_error h with h | ⟨t, -, h⟩
      · exact copySegment_error h
      · exact ih h

theorem sendUnit_error {accept : ℕ → Bool} {t : TsoState} {segs : List Segment} {l : Lead} {r : EopScan}
    {f : Fault} (h : sendUnit accept t segs l r = .error f) :
    f = .abort ∨ f = .outOfBounds := by
  unfold sendUnit at h
  split at h
  · cases h
    exact .inl rfl
  · dsimp only at h
    split at h
    · cases h
    · rcases bind_error h with h | ⟨c, -, h⟩
      · exact .inr (copyLoop_error h)
      · split at h
        · cases h
          exact .inl rfl
        · split at h
          · rcases bind_error h with h | ⟨s, -, h⟩
            · unfold sendTso at h
              dsimp only at h
              split at h
              · cases h
                exact .inr rfl
              · split at h <;> cases h
            · cases h
          · unfold sendPlain at h
            dsimp only at h
            split at h <;> cases h
            exact .inr rfl

theorem triggerTxPacket_error {accept : ℕ → Bool} {t : TsoState} {segs : List Segment} {f : Fault}
    (h : triggerTxPacket accept t segs = .error f) : f = .abort ∨ f = .outOfBounds := by
  cases segs with
  | nil => cases h
  | cons s rest =>
    rcases bind_error h with h | ⟨r, -, h⟩
    · exact .inl (eopScan_error h)
    · split at h
      · cases h
      · rcases bind_error h with h | ⟨x, -, h⟩
        · exact sendUnit_error h
        · cases h

def subclass : Subclass TxEnv Empty TxClient Unit where
  prepare := prepare
  process _ s _ p := .ok (process s p)
  resume env s ctxs _ := triggerTx env s ctxs
  receive _ _ _ x := x.elim
  headWriteBack s := if s.hwb then some s.hwbAddr else none
  held := TxClient.readySegments
  process_held := by
    rintro env s ctxs p e ⟨⟩
    simp [process, Effect.released]
  resume_held := by
    intro env s ctxs k e h
    obtain ⟨r, -, h⟩ := bind_ok h
    cases r with
    | none =>
      cases h
      simp [Effect.released]
    | some sent =>
      cases h
      simp [Effect.released]
  process_state := by
    rintro env s ctxs p ⟨⟩
  resume_state := by
    intro env s ctxs k h
    rcases bind_error h with h | ⟨r, -, h⟩
    · rcases triggerTxPacket_error h with h | h <;> cases h
    · cases r <;> cases h

end Vmux.LanTx
