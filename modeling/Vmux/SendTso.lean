import Vmux.Checksums

namespace Vmux.SendTso

open Bytes Checksums

/-- An mbuf, named by the allocation that returned it, and the `data_len` bytes it holds. -/
structure Mbuf where
  id : ℕ
  data : List UInt8
deriving DecidableEq, Repr

/-- A chain under construction. `rte_pktmbuf_lastseg` is `last`; the chain is never empty. -/
structure Chain where
  front : List Mbuf
  last : Mbuf
  nbSegs : ℕ
  pktLen : ℕ
deriving DecidableEq, Repr

structure Offload where
  l2Len : ℕ
  l3Len : ℕ
  l4Len : ℕ
  tsoSegsz : ℕ
deriving DecidableEq, Repr

/-- Room of an empty mbuf of the TX pools when the port supports TSO. -/
def room : ℕ := 4096 * 4

namespace Chain

variable (c : Chain)

def mbufs : List Mbuf := c.front ++ [c.last]

def ids : List ℕ := c.mbufs.map Mbuf.id

def bytes : List UInt8 := c.mbufs.flatMap Mbuf.data

def first : Mbuf := c.front.headD c.last

def tailroom : ℕ := room - c.last.data.length

def start (m : Mbuf) : Chain := ⟨[], m, 1, 0⟩

def link (m : Mbuf) : Chain := ⟨c.mbufs, m, c.nbSegs + 1, c.pktLen⟩

def copy (buf : List UInt8) : Chain :=
  { c with last := { c.last with data := c.last.data ++ buf }, pktLen := c.pktLen + buf.length }

def setFirst (data : List UInt8) : Chain :=
  match c.front with
  | [] => { c with last := { c.last with data } }
  | m :: front => { c with front := { m with data } :: front }

end Chain

/-- What the port answers: does its `k`-th allocation succeed, does its `k`-th burst take the packet. -/
structure Port where
  tsoSupported : Bool
  ports : ℕ
  alloc : ℕ → Bool
  burst : ℕ → Bool

structure Dpdk where
  tsoSeg : ℕ → Option Chain
  allocs : ℕ
  bursts : ℕ
  allocated : List ℕ
  accepted : List (Chain × Offload)
  freed : List ℕ

namespace Dpdk

variable (o : Port) (d : Dpdk)

def pktmbufAlloc : Option Mbuf × Dpdk :=
  if o.alloc d.allocs then
    (some ⟨d.allocs, []⟩, { d with allocs := d.allocs + 1, allocated := d.allocated ++ [d.allocs] })
  else (none, { d with allocs := d.allocs + 1 })

/-- `rte_pktmbuf_free` returns the whole chain. -/
def pktmbufFree (c : Chain) : Dpdk := { d with freed := d.freed ++ c.ids }

def setTsoSeg (queue : ℕ) (c : Option Chain) : Dpdk := { d with tsoSeg := Function.update d.tsoSeg queue c }

def tsoFirst (queue : ℕ) : Option Chain × Dpdk :=
  match d.tsoSeg queue with
  | some c => (some c, d)
  | none =>
    match d.pktmbufAlloc o with
    | (some m, d) => (some (.start m), d)
    | (none, d) => (none, d)

end Dpdk

/-- The copy loop. It stops with false where an allocation fails. -/
def copyData (o : Port) (buf : List UInt8) (d : Dpdk) (c : Chain) : Bool × Chain × Dpdk :=
  if buf = [] then (true, c, d)
  else if c.tailroom = 0 then
    match d.pktmbufAlloc o with
    | (none, d) => (false, c, d)
    | (some m, d) => copyData o (buf.drop room) d ((c.link m).copy (buf.take room))
  else copyData o (buf.drop c.tailroom) d (c.copy (buf.take c.tailroom))
termination_by buf.length
decreasing_by
  · have : 0 < buf.length := List.length_pos_iff.mpr (by assumption)
    simp only [List.length_drop, room]
    omega
  · have : 0 < buf.length := List.length_pos_iff.mpr (by assumption)
    simp only [List.length_drop]
    omega

/-- `rte_ipv4_phdr_cksum` for a packet with `RTE_MBUF_F_TX_TCP_SEG`, whose length field is zero. -/
def phdrCksumTso (data : List UInt8) (ip : ℕ) : ℕ :=
  rteRawCksum (slice data (ip + 12) 8 ++ [0] ++ slice data (ip + 9) 1 ++ [0, 0])

/-- The header of the first mbuf as the port needs it: no IPv4 checksum, and the pseudo header sum for TCP.
A write behind `data_len` is not part of the packet. -/
def prepareHeader (data : List UInt8) (l2 l3 : ℕ) : List UInt8 :=
  let zeroed := (overwrite data (l2 + hdrChecksumOff) (leBytes 2 0)).take data.length
  (overwrite zeroed (l2 + l3 + tcpCksumOff) (leBytes 2 (phdrCksumTso zeroed l2))).take data.length

def txBurst (o : Port) (c : Chain × Offload) : ℕ → Dpdk → Bool × Dpdk
  | 0, d => (true, d)
  | n + 1, d =>
    if o.burst d.bursts then txBurst o c n { d with bursts := d.bursts + 1, accepted := d.accepted ++ [c] }
    else (false, { d with bursts := d.bursts + 1 }.pktmbufFree c.1)

def sendTso (o : Port) (d : Dpdk) (queue : ℕ) (buf : List UInt8) (endOfPacket : Bool) (h : Offload) : Bool × Dpdk :=
  if !o.tsoSupported then (false, d)
  else
    match d.tsoFirst o queue with
    | (none, d) => (false, d)
    | (some c, d) =>
      match copyData o buf d c with
      | (false, c, d) => (false, (d.setTsoSeg queue none).pktmbufFree c)
      | (true, c, d) =>
        if !endOfPacket then (true, d.setTsoSeg queue (some c))
        else if c.first.data.length < h.l2Len + h.l3Len + h.l4Len then
          (false, (d.setTsoSeg queue none).pktmbufFree c)
        else
          let r := txBurst o (c.setFirst (prepareHeader c.first.data h.l2Len h.l3Len), h) o.ports d
          (r.1, r.2.setTsoSeg queue none)

/-- What every chain built by `send_tso` satisfies: only its last mbuf has room. -/
structure Chain.Wf (c : Chain) : Prop where
  nbSegs : c.nbSegs = c.mbufs.length
  pktLen : c.pktLen = c.bytes.length
  full : ∀ m ∈ c.front, m.data.length = room
  last : c.last.data.length ≤ room
  used : c.front ≠ [] → c.last.data ≠ []

/-- How many mbufs `n` bytes need; the first is taken before there is data. -/
def mbufsFor (n : ℕ) : ℕ := max 1 ((n + room - 1) / room)

theorem mbufsFor_mono {m n : ℕ} (h : m ≤ n) : mbufsFor m ≤ mbufsFor n := by
  unfold mbufsFor
  have := Nat.div_le_div_right (c := room) (show m + room - 1 ≤ n + room - 1 by omega)
  omega

namespace Chain

variable {c : Chain}

theorem bytes_eq (c : Chain) : c.bytes = c.front.flatMap Mbuf.data ++ c.last.data := by
  simp [bytes, mbufs]

theorem Wf.bytes_length (h : c.Wf) : c.bytes.length = c.front.length * room + c.last.data.length := by
  have hfront : (c.front.flatMap Mbuf.data).length = c.front.length * room := by
    have hmap : c.front.map (fun m => m.data.length) = List.replicate c.front.length room :=
      List.eq_replicate_iff.mpr ⟨by simp, by simpa using h.full⟩
    rw [List.length_flatMap, hmap, List.sum_replicate, smul_eq_mul]
  rw [bytes_eq, List.length_append, hfront]

theorem Wf.mbufs_length (h : c.Wf) : c.mbufs.length = mbufsFor c.bytes.length := by
  have hlen := h.bytes_length
  have hlast := h.last
  have hcount : c.mbufs.length = c.front.length + 1 := by simp [mbufs]
  rw [hcount, mbufsFor]
  rcases Nat.eq_zero_or_pos c.last.data.length with hz | hpos
  · have hnil : c.front = [] := by
      by_contra hne
      exact h.used hne (List.length_eq_zero_iff.mp hz)
    rw [hlen, hz, hnil]
    rfl
  · have hdiv : (c.bytes.length + room - 1) / room = c.front.length + 1 := by
      unfold room at *
      omega
    rw [hdiv]
    omega

theorem Wf.start (m : ℕ) : (Chain.start ⟨m, []⟩).Wf where
  nbSegs := rfl
  pktLen := rfl
  full := by simp [Chain.start]
  last := Nat.zero_le _
  used := fun h => absurd rfl h

theorem bytes_copy (c : Chain) (buf : List UInt8) : (c.copy buf).bytes = c.bytes ++ buf := by
  simp [copy, bytes_eq]

theorem ids_copy (c : Chain) (buf : List UInt8) : (c.copy buf).ids = c.ids := by
  simp [copy, ids, mbufs]

theorem Wf.copy {buf : List UInt8} (h : c.Wf) (hlen : c.last.data.length + buf.length ≤ room) : (c.copy buf).Wf where
  nbSegs := by
    rw [Chain.copy, h.nbSegs]
    simp [mbufs]
  pktLen := by
    rw [bytes_copy, List.length_append, ← h.pktLen]
    rfl
  full := h.full
  last := by simpa [Chain.copy] using hlen
  used := by
    intro hne hnil
    exact h.used hne (List.append_eq_nil_iff.mp hnil).1

theorem bytes_link (c : Chain) (m : ℕ) : (c.link ⟨m, []⟩).bytes = c.bytes := by
  simp [link, bytes, mbufs]

theorem ids_link (c : Chain) (m : ℕ) : (c.link ⟨m, []⟩).ids = c.ids ++ [m] := by
  simp [link, ids, mbufs]

theorem Wf.link_copy {buf : List UInt8} (m : ℕ) (h : c.Wf) (hfull : c.tailroom = 0) (hne : buf ≠ [])
    (hlen : buf.length ≤ room) : ((c.link ⟨m, []⟩).copy buf).Wf where
  nbSegs := by
    rw [Chain.copy, Chain.link, h.nbSegs]
    simp [mbufs]
  pktLen := by
    rw [bytes_copy, bytes_link, List.length_append, ← h.pktLen]
    rfl
  full := by
    intro x hx
    rcases List.mem_append.mp hx with hx | hx
    · exact h.full x hx
    · rw [List.mem_singleton.mp hx]
      have := h.last
      unfold tailroom at hfull
      omega
  last := by simpa [Chain.copy, Chain.link] using hlen
  used := fun _ => by simpa [Chain.copy, Chain.link] using hne

end Chain

/-- The driver after `n` allocations that succeeded and `m` that failed. -/
def Dpdk.took (d : Dpdk) (n m : ℕ) : Dpdk :=
  { d with allocs := d.allocs + n + m, allocated := d.allocated ++ List.range' d.allocs n }

theorem Dpdk.took_zero (d : Dpdk) : d.took 0 0 = d := by
  simp [took]

theorem Dpdk.took_took (d : Dpdk) (n n' m : ℕ) : (d.took n 0).took n' m = d.took (n + n') m := by
  simp only [took, Nat.add_zero, List.append_assoc, List.range'_append_1, Nat.add_assoc]

theorem Dpdk.pktmbufAlloc_eq (o : Port) (d : Dpdk) :
    d.pktmbufAlloc o = if o.alloc d.allocs then (some ⟨d.allocs, []⟩, d.took 1 0) else (none, d.took 0 1) := by
  simp [pktmbufAlloc, took]

/-- What the copy loop does: it appends the buffer, or it stops where an allocation fails. -/
structure Copied (o : Port) (buf : List UInt8) (d : Dpdk) (c : Chain) (n : ℕ) (c' : Chain) : Prop where
  wf : c'.Wf
  ids : c'.ids = c.ids ++ List.range' d.allocs n
  allocs : ∀ k < n, o.alloc (d.allocs + k) = true
  outcome : (copyData o buf d c = (true, c', d.took n 0) ∧ c'.bytes = c.bytes ++ buf) ∨
    (copyData o buf d c = (false, c', d.took n 1) ∧ o.alloc (d.allocs + n) = false ∧
      c'.mbufs.length < mbufsFor (c.bytes.length + buf.length))

theorem copyData_copied (o : Port) (buf : List UInt8) (d : Dpdk) (c : Chain) (hc : c.Wf) :
    ∃ n c', Copied o buf d c n c' := by
  induction hn : buf.length using Nat.strong_induction_on generalizing buf d c with
  | _ len ih =>
    subst hn
    by_cases hnil : buf = []
    · refine ⟨0, c, hc, by simp, by simp, .inl ⟨?_, by simp [hnil]⟩⟩
      rw [copyData, if_pos hnil, Dpdk.took_zero]
    have hpos : 0 < buf.length := List.length_pos_iff.mpr hnil
    by_cases hfull : c.tailroom = 0
    · by_cases ha : o.alloc d.allocs = true
      · have hstep : copyData o buf d c =
            copyData o (buf.drop room) (d.took 1 0) ((c.link ⟨d.allocs, []⟩).copy (buf.take room)) := by
          rw [copyData, if_neg hnil, if_pos hfull, Dpdk.pktmbufAlloc_eq, if_pos ha]
        have hne : buf.take room ≠ [] := by
          simp [List.take_eq_nil_iff, hnil, room]
        have hwf := hc.link_copy d.allocs hfull hne (List.length_take_le _ _)
        obtain ⟨n, c', hcop⟩ := ih (buf.drop room).length (by simp [room]; omega) (buf.drop room) (d.took 1 0) _ hwf rfl
        have hbytes : ((c.link ⟨d.allocs, []⟩).copy (buf.take room)).bytes = c.bytes ++ buf.take room := by
          rw [Chain.bytes_copy, Chain.bytes_link]
        refine ⟨1 + n, c', hcop.wf, ?_, ?_, ?_⟩
        · rw [hcop.ids, Chain.ids_copy, Chain.ids_link, List.append_assoc]
          congr 1
          rw [Nat.add_comm 1 n, List.range'_succ]
          rfl
        · intro k hk
          cases k with
          | zero => exact ha
          | succ k =>
            have := hcop.allocs k (by omega)
            simpa [Dpdk.took, Nat.add_assoc, Nat.add_comm 1 k] using this
        · rw [hstep, ← d.took_took 1 n, ← d.took_took 1 n]
          have hout := hcop.outcome
          rw [hbytes, List.append_assoc, List.take_append_drop, List.length_append, Nat.add_assoc,
            ← List.length_append, List.take_append_drop] at hout
          simpa [Dpdk.took, Nat.add_assoc] using hout
      · refine ⟨0, c, hc, by simp, by simp, .inr ⟨?_, by simpa using ha, ?_⟩⟩
        · rw [copyData, if_neg hnil, if_pos hfull, Dpdk.pktmbufAlloc_eq, if_neg ha]
        · have hlen := hc.bytes_length
          have hlast := hc.last
          have hcount : c.mbufs.length = c.front.length + 1 := by simp [Chain.mbufs]
          rw [hcount, mbufsFor]
          unfold Chain.tailroom at hfull
          have hdiv : c.front.length + 2 ≤ (c.bytes.length + buf.length + room - 1) / room := by
            unfold room at *
            omega
          omega
    · have hstep : copyData o buf d c = copyData o (buf.drop c.tailroom) d (c.copy (buf.take c.tailroom)) := by
        rw [copyData, if_neg hnil, if_neg hfull]
      have hroom : c.last.data.length + (buf.take c.tailroom).length ≤ room := by
        have := hc.last
        rw [List.length_take]
        unfold Chain.tailroom
        omega
      obtain ⟨n, c', hcop⟩ := ih (buf.drop c.tailroom).length (by rw [List.length_drop]; omega) (buf.drop c.tailroom) d _
        (hc.copy hroom) rfl
      refine ⟨n, c', hcop.wf, by rw [hcop.ids, Chain.ids_copy], hcop.allocs, ?_⟩
      have hout := hcop.outcome
      rw [Chain.bytes_copy, List.append_assoc, List.take_append_drop, List.length_append, Nat.add_assoc,
        ← List.length_append, List.take_append_drop] at hout
      rw [hstep]
      exact hout

def checksumFields (l2 l3 : ℕ) : List (ℕ × ℕ) := [(l2 + hdrChecksumOff, 2), (l2 + l3 + tcpCksumOff, 2)]

theorem prepareHeader_same {data : List UInt8} {l2 l3 l4 : ℕ} (h3 : 20 ≤ l3) (h4 : 20 ≤ l4)
    (h : l2 + l3 + l4 ≤ data.length) : SameOutside (checksumFields l2 l3) data (prepareHeader data l2 l3) := by
  have hzero : SameOutside (checksumFields l2 l3) data (overwrite data (l2 + hdrChecksumOff) (leBytes 2 0)) := by
    refine (SameOutside.refl _ _).write ?_ (by simp [checksumFields, leBytes_length])
    rw [leBytes_length, hdrChecksumOff]
    omega
  have htake : (overwrite data (l2 + hdrChecksumOff) (leBytes 2 0)).take data.length =
      overwrite data (l2 + hdrChecksumOff) (leBytes 2 0) := List.take_of_length_le hzero.length.le
  unfold prepareHeader
  dsimp only
  rw [htake]
  have hsum : ∀ v, SameOutside (checksumFields l2 l3) data
      (overwrite (overwrite data (l2 + hdrChecksumOff) (leBytes 2 0)) (l2 + l3 + tcpCksumOff) (leBytes 2 v)) := by
    intro v
    refine hzero.write ?_ (by simp [checksumFields, leBytes_length])
    rw [leBytes_length, tcpCksumOff]
    omega
  rw [List.take_of_length_le (hsum _).length.le]
  exact hsum _

namespace Chain

theorem first_split (c : Chain) :
    ∃ rest, c.bytes = c.first.data ++ rest ∧ ∀ x, (c.setFirst x).bytes = x ++ rest := by
  obtain ⟨front, last, nbSegs, pktLen⟩ := c
  cases front with
  | nil => exact ⟨[], by simp [bytes, mbufs, first], fun x => by simp [bytes, mbufs, setFirst]⟩
  | cons m front =>
    exact ⟨front.flatMap Mbuf.data ++ last.data, by simp [bytes, mbufs, first],
      fun x => by simp [bytes, mbufs, setFirst]⟩

theorem setFirst_shape (c : Chain) (x : List UInt8) : (c.setFirst x).ids = c.ids ∧
    (c.setFirst x).mbufs.length = c.mbufs.length ∧ (c.setFirst x).nbSegs = c.nbSegs ∧
    (c.setFirst x).pktLen = c.pktLen := by
  obtain ⟨front, last, nbSegs, pktLen⟩ := c
  cases front <;> simp [setFirst, ids, mbufs]

theorem Wf.first_length {c : Chain} (h : c.Wf) : c.first.data.length = min room c.bytes.length := by
  have hlen := h.bytes_length
  have hlast := h.last
  obtain ⟨front, last, nbSegs, pktLen⟩ := c
  cases front with
  | nil =>
    rw [hlen]
    simpa [first] using hlast
  | cons m front =>
    have hm : m.data.length = room := h.full m (by simp)
    rw [hlen, first, List.headD_cons, hm, List.length_cons, Nat.succ_mul]
    omega

end Chain

/-- The driver after a unit that did not go out: everything taken for it has been returned. -/
def Dpdk.dropped (d : Dpdk) (n m b : ℕ) : Dpdk :=
  { d.took n m with bursts := d.bursts + b, freed := d.freed ++ List.range' d.allocs n }

/-- The driver after a unit that the port took. -/
def Dpdk.handed (d : Dpdk) (n : ℕ) (c : Chain × Offload) : Dpdk :=
  { d.took n 0 with bursts := d.bursts + 1, accepted := d.accepted ++ [c] }

section

variable (o : Port) (queue : ℕ) (d₀ : Dpdk)

/-- A chain of the `n` mbufs allocated since `d₀` that holds these bytes. -/
structure Built (bytes : List UInt8) (n : ℕ) (c : Chain) : Prop where
  wf : c.Wf
  bytes : c.bytes = bytes
  ids : c.ids = List.range' d₀.allocs n
  allocs : ∀ k < n, o.alloc (d₀.allocs + k) = true

/-- What `tso_seg` carries between two calls for one unit. -/
inductive Carried : List UInt8 → Dpdk → Prop
  | start : Carried [] d₀
  | held {bytes : List UInt8} {n : ℕ} {c : Chain} (h : Built o d₀ bytes n c) :
      Carried bytes ((d₀.took n 0).setTsoSeg queue (some c))

/-- Why a unit of `n` bytes or more is refused. -/
def Blocked (h : Offload) (n : ℕ) : Prop :=
  (∃ k < mbufsFor n, o.alloc (d₀.allocs + k) = false) ∨ min room n < h.l2Len + h.l3Len + h.l4Len ∨
    o.burst d₀.bursts = false

end

section

variable {o : Port} {queue : ℕ} {d₀ d : Dpdk} {bytes : List UInt8}

theorem setTsoSeg_none (h₀ : d₀.tsoSeg queue = none) (n m : ℕ) : (d₀.took n m).setTsoSeg queue none = d₀.took n m := by
  have : Function.update d₀.tsoSeg queue none = d₀.tsoSeg := by
    rw [← h₀]
    exact Function.update_eq_self _ _
  rw [Dpdk.setTsoSeg]
  exact congrArg (fun f => { d₀.took n m with tsoSeg := f }) this

theorem Built.mbufs {n : ℕ} {c : Chain} (h : Built o d₀ bytes n c) : n = mbufsFor bytes.length := by
  have hlen := congrArg List.length h.ids
  rw [Chain.ids, List.length_map, List.length_range', h.wf.mbufs_length, h.bytes] at hlen
  exact hlen.symm

theorem tsoFirst_carried (h₀ : d₀.tsoSeg queue = none) (h : Carried o queue d₀ bytes d) :
    (∃ n c x, Built o d₀ bytes n c ∧ d.tsoFirst o queue = (some c, (d₀.took n 0).setTsoSeg queue x)) ∨
      (d.tsoFirst o queue = (none, d₀.took 0 1) ∧ o.alloc d₀.allocs = false) := by
  cases h with
  | @held _ n c hb =>
    refine .inl ⟨n, c, some c, hb, ?_⟩
    rw [Dpdk.tsoFirst]
    simp [Dpdk.setTsoSeg]
  | start =>
    rw [Dpdk.tsoFirst, h₀, Dpdk.pktmbufAlloc_eq]
    by_cases ha : o.alloc d₀.allocs = true
    · refine .inl ⟨1, .start ⟨d₀.allocs, []⟩, none, ⟨.start _, rfl, rfl, ?_⟩, ?_⟩
      · intro k hk
        rw [Nat.lt_one_iff.mp hk]
        exact ha
      · rw [if_pos ha, setTsoSeg_none h₀]
    · refine .inr ⟨?_, by simpa using ha⟩
      rw [if_neg ha]

theorem Built.copyData {n : ℕ} {c : Chain} (h : Built o d₀ bytes n c) (buf : List UInt8) (x : Option Chain) :
    ∃ n' c', (Built o d₀ (bytes ++ buf) n' c' ∧
        SendTso.copyData o buf ((d₀.took n 0).setTsoSeg queue x) c = (true, c', (d₀.took n' 0).setTsoSeg queue x)) ∨
      (c'.ids = List.range' d₀.allocs n' ∧ o.alloc (d₀.allocs + n') = false ∧ n' < mbufsFor (bytes ++ buf).length ∧
        SendTso.copyData o buf ((d₀.took n 0).setTsoSeg queue x) c =
          (false, c', (d₀.took n' 1).setTsoSeg queue x)) := by
  obtain ⟨m, c', hcop⟩ := copyData_copied o buf ((d₀.took n 0).setTsoSeg queue x) c h.wf
  have htook : ∀ e, ((d₀.took n 0).setTsoSeg queue x).took m e = (d₀.took (n + m) e).setTsoSeg queue x := by
    intro e
    rw [← Dpdk.took_took]
    rfl
  have hbase : ((d₀.took n 0).setTsoSeg queue x).allocs = d₀.allocs + n := rfl
  have hids : c'.ids = List.range' d₀.allocs (n + m) := by
    rw [hcop.ids, h.ids, hbase, List.range'_append_1]
  refine ⟨n + m, c', ?_⟩
  rcases hcop.outcome with ⟨hok, hbytes⟩ | ⟨hfail, ha, hlt⟩
  · refine .inl ⟨⟨hcop.wf, by rw [hbytes, h.bytes], hids, ?_⟩, by rw [hok, htook]⟩
    intro k hk
    by_cases hkn : k < n
    · exact h.allocs k hkn
    · have := hcop.allocs (k - n) (by omega)
      rwa [hbase, Nat.add_assoc, Nat.add_sub_of_le (by omega)] at this
  · refine .inr ⟨hids, by rw [← Nat.add_assoc]; exact ha, ?_, by rw [hfail, htook]⟩
    have hlen := congrArg List.length hids
    rw [Chain.ids, List.length_map, List.length_range'] at hlen
    rw [← hlen, List.length_append, ← h.bytes]
    exact hlt

/-- The chain as the port receives it. -/
def ready (c : Chain) (h : Offload) : Chain × Offload :=
  (c.setFirst (prepareHeader c.first.data h.l2Len h.l3Len), h)

/-- One call for a unit that started in `d₀`. -/
theorem sendTso_cases (hs : o.tsoSupported = true) (hp : o.ports = 1) (h₀ : d₀.tsoSeg queue = none)
    (h : Carried o queue d₀ bytes d) (buf : List UInt8) (eop : Bool) (hdr : Offload) :
    (eop = false ∧ ∃ d', sendTso o d queue buf eop hdr = (true, d') ∧ Carried o queue d₀ (bytes ++ buf) d') ∨
    (eop = true ∧ ∃ n c, Built o d₀ (bytes ++ buf) n c ∧
      hdr.l2Len + hdr.l3Len + hdr.l4Len ≤ c.first.data.length ∧ o.burst d₀.bursts = true ∧
      sendTso o d queue buf eop hdr = (true, d₀.handed n (ready c hdr))) ∨
    (∃ n m b, sendTso o d queue buf eop hdr = (false, d₀.dropped n m b) ∧
      ((∃ k < mbufsFor (bytes ++ buf).length, o.alloc (d₀.allocs + k) = false) ∨
        eop = true ∧ Blocked o d₀ hdr (bytes ++ buf).length)) := by
  unfold sendTso
  rw [hs, Bool.not_true, if_neg Bool.false_ne_true]
  rcases tsoFirst_carried h₀ h with ⟨n, c, x, hb, hfirst⟩ | ⟨hfirst, ha⟩
  · rw [hfirst]
    dsimp only
    obtain ⟨n', c', ⟨hb', hcopy⟩ | ⟨hids, ha, hlt, hcopy⟩⟩ := @Built.copyData o queue _ _ _ _ hb buf x
    · rw [hcopy]
      dsimp only
      cases eop with
      | false =>
        refine .inl ⟨rfl, _, rfl, ?_⟩
        have hset : ((d₀.took n' 0).setTsoSeg queue x).setTsoSeg queue (some c') =
            (d₀.took n' 0).setTsoSeg queue (some c') := by
          simp [Dpdk.setTsoSeg]
        rw [hset]
        exact .held hb'
      | true =>
        have hclear : ((d₀.took n' 0).setTsoSeg queue x).setTsoSeg queue none = d₀.took n' 0 := by
          rw [← setTsoSeg_none h₀ n' 0]
          simp [Dpdk.setTsoSeg]
        rw [Bool.not_true, if_neg Bool.false_ne_true]
        by_cases hlen : c'.first.data.length < hdr.l2Len + hdr.l3Len + hdr.l4Len
        · rw [if_pos hlen, hclear]
          refine .inr (.inr ⟨n', 0, 0, ?_, .inr ⟨rfl, .inr (.inl ?_)⟩⟩)
          · rw [Dpdk.pktmbufFree, hb'.ids]
            rfl
          · rwa [hb'.wf.first_length, hb'.bytes] at hlen
        · rw [if_neg hlen, hp, txBurst]
          by_cases hburst : o.burst d₀.bursts = true
          · refine .inr (.inl ⟨rfl, n', c', hb', by omega, hburst, ?_⟩)
            rw [if_pos (by exact hburst), txBurst]
            exact congrArg (fun e : Dpdk => (true, { e with
              bursts := d₀.bursts + 1, accepted := d₀.accepted ++ [ready c' hdr] })) hclear
          · refine .inr (.inr ⟨n', 0, 1, ?_, .inr ⟨rfl, .inr (.inr (by simpa using hburst))⟩⟩)
            have hids : (ready c' hdr).1.ids = List.range' d₀.allocs n' := (c'.setFirst_shape _).1.trans hb'.ids
            rw [if_neg (by exact hburst), Dpdk.dropped, ← hids]
            exact congrArg (fun e : Dpdk => (false, { e with
              bursts := d₀.bursts + 1, freed := d₀.freed ++ (ready c' hdr).1.ids })) hclear
    · rw [hcopy]
      refine .inr (.inr ⟨n', 1, 0, ?_, .inl ⟨n', hlt, ha⟩⟩)
      have hclear : ((d₀.took n' 1).setTsoSeg queue x).setTsoSeg queue none = d₀.took n' 1 := by
        rw [← setTsoSeg_none h₀ n' 1]
        simp [Dpdk.setTsoSeg]
      dsimp only
      rw [hclear, Dpdk.pktmbufFree, hids]
      rfl
  · rw [hfirst]
    refine .inr (.inr ⟨0, 1, 0, ?_, .inl ⟨0, ?_, ha⟩⟩)
    · simp [Dpdk.dropped]
      rfl
    · unfold mbufsFor
      omega

end

end Vmux.SendTso
