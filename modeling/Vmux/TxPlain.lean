import Vmux.TxDelivery

namespace Vmux.TxPlain

open Bytes DescriptorQueue LanTx TxUnits TxDelivery

/-- The data buffer holds what guest memory has at the buffer address. -/
def Loaded (mem : ℕ → UInt8) (s : Segment) : Prop :=
  s.data.take (txBufSz s.d1) = readBytes mem s.bufAddr (txBufSz s.d1)

/-- The bytes that the contexts of a unit hold for it. -/
def gathered (u : TxUnit) : List UInt8 := u.data.flatMap fun s => s.data.take (txBufSz s.d1)

def frame (mem : ℕ → UInt8) (u : TxUnit) : List UInt8 :=
  u.data.flatMap fun s => readBytes mem s.bufAddr (txBufSz s.d1)

/-- A unit without TSO and without L4 checksum offload that fits the MTU. -/
structure Plain (u : TxUnit) : Prop where
  tso : u.lead.tso = false
  l4t : cmdL4t u.last.d1 ≠ l4tTcp ∧ cmdL4t u.last.d1 ≠ l4tUdp
  mtu : bufSzSum u.data ≤ mtu

/-- The two low bits of L2TAG1, which the 16-bit decoding takes for bits of the size. -/
def tagLow (d1 : ℕ) : ℕ := d1 / 0x1000000000000 % 4

theorem pktLen16_eq (d1 : ℕ) : pktLen16 d1 = txBufSz d1 + 0x4000 * tagLow d1 := by
  unfold pktLen16 txBufSz tagLow
  omega

theorem pktLenSum_append (xs ys : List Segment) : pktLenSum (xs ++ ys) = pktLenSum xs + pktLenSum ys := by
  simp [pktLenSum]

theorem bufSzSum_append (xs ys : List Segment) : bufSzSum (xs ++ ys) = bufSzSum xs + bufSzSum ys := by
  simp [bufSzSum]

theorem bufSzSum_singleton (s : Segment) : bufSzSum [s] = txBufSz s.d1 := by
  simp [bufSzSum]

theorem pktLenSum_eq {segs : List Segment} (h : ∀ s ∈ segs, tagLow s.d1 = 0) : pktLenSum segs = bufSzSum segs := by
  unfold pktLenSum bufSzSum
  congr 1
  apply List.map_congr_left
  intro s hs
  rw [pktLen16_eq, h s hs, Nat.mul_zero, Nat.add_zero]

theorem le_pktLenSum {segs : List Segment} {s : Segment} (hs : s ∈ segs) : pktLen16 s.d1 ≤ pktLenSum segs :=
  List.single_le_sum (by simp) _ (List.mem_map_of_mem hs)

theorem copyCnt_le (segs : List Segment) (need : ℕ) : copyCnt segs need ≤ segs.length := by
  induction segs generalizing need with
  | nil => exact le_rfl
  | cons s rest ih =>
    rw [copyCnt]
    have := ih (need - pktLen16 s.d1)
    split <;> simp only [List.length_cons] <;> omega

theorem copyCnt_last (inner : List Segment) (e : Segment) (need : ℕ) :
    copyCnt (inner ++ [e]) need = inner.length + 1 ↔ pktLenSum inner < need := by
  induction inner generalizing need with
  | nil =>
    rw [List.nil_append, copyCnt]
    by_cases h : need = 0
    · simp [h, pktLenSum]
    · rw [if_neg h]
      simp [copyCnt, pktLenSum]
      omega
  | cons s inner ih =>
    have hsum : pktLenSum (s :: inner) = pktLen16 s.d1 + pktLenSum inner := by simp [pktLenSum]
    rw [List.cons_append, copyCnt, hsum]
    by_cases h : need = 0
    · rw [if_pos h]
      simp [h]
    · rw [if_neg h, List.length_cons, Nat.add_right_cancel_iff, ih]
      omega

theorem fetched_eq {segs : List Segment} (htag : ∀ s ∈ segs, tagLow s.d1 = 0) :
    fetched segs = segs.flatMap fun s => s.data.take (txBufSz s.d1) := by
  unfold fetched
  apply List.flatMap_congr
  intro s hs
  rw [pktLen16_eq, htag s hs, Nat.mul_zero, Nat.add_zero]

section

variable {accept : ℕ → Bool} {mem : ℕ → UInt8} {pktbuf : List UInt8} {u : TxUnit}

theorem bufSzSum_data (u : TxUnit) : bufSzSum u.data = bufSzSum u.inner + txBufSz u.last.d1 := by
  rw [TxUnit.data, bufSzSum_append, bufSzSum_singleton]

theorem sent_bytes :
    (overwrite pktbuf 0 (slice (fetched u.data) 0 (bufSzSum u.data))).take (bufSzSum u.data) =
      (fetched u.data).take (bufSzSum u.data) := by
  have hlen : (slice (fetched u.data) 0 (bufSzSum u.data)).length = bufSzSum u.data := by
    apply slice_length
    rw [fetched_length u.full_data, Nat.zero_add]
    exact bufSzSum_le u.data
  have h := @take_overwrite pktbuf 0 (slice (fetched u.data) 0 (bufSzSum u.data)) (Nat.zero_le _)
  rw [hlen, Nat.zero_add, List.take_zero, List.nil_append] at h
  exact h

theorem packet_plain (hu : Plain u) :
    triggerTxPacket accept ⟨0, 0, pktbuf⟩ u.segs = .ok (some
      ⟨⟨0, 0, overwrite pktbuf 0 (slice (fetched u.data) 0 (bufSzSum u.data))⟩,
        u.lead.dSkip + copyCnt u.data (bufSzSum u.data),
        [.ethSend ((fetched u.data).take (bufSzSum u.data))]⟩) := by
  have hlimit : dataLimit u.lead u.scan ⟨0, 0, pktbuf⟩ = bufSzSum u.data := by
    rw [dataLimit, hu.tso, if_neg Bool.false_ne_true, u.totalLen_eq]
  have hle := bufSzSum_le u.data
  have hmtu := hu.mtu
  obtain ⟨off', hcopy⟩ := copyLoop_eq (bufSzSum u.data) u.full_data u.lead.dSkip 0 ⟨0, 0, pktbuf⟩ le_rfl
    (Nat.zero_le _) (by omega) (by dsimp only; omega) (Nat.zero_le _)
  simp only [Nat.sub_zero, Nat.zero_add] at hcopy
  have htotal := u.totalLen_eq
  have htcp : u.scan.l4t ≠ l4tTcp := hu.l4t.1
  have hudp : u.scan.l4t ≠ l4tUdp := hu.l4t.2
  rw [TxUnit.packet_eq, sendUnit, if_neg (by omega)]
  dsimp only
  rw [if_neg (by simp [hu.tso]), hlimit, u.drop_segs, hcopy]
  change Except.map some (if _ then _ else _) = _
  rw [if_neg (by dsimp only; omega), if_neg (by simp [hu.tso]), sendPlain]
  dsimp only
  rw [if_neg (by simp [htcp, hudp]), if_neg htcp, if_neg hudp, sent_bytes]
  simp only [Except.map]

theorem gathered_eq (htag : ∀ s ∈ u.inner, tagLow s.d1 = 0) :
    (fetched u.data).take (bufSzSum u.data) = gathered u := by
  have hlen : (fetched u.inner).length = bufSzSum u.inner := by
    rw [fetched_length fun s hs => u.full s (List.mem_append_left _ hs), pktLenSum_eq htag]
  have hsplit : fetched u.data = fetched u.inner ++ u.last.data.take (pktLen16 u.last.d1) := by
    simp [fetched, TxUnit.data]
  rw [hsplit, bufSzSum_data, ← hlen, List.take_length_add_append, List.take_take, min_eq_left (txBufSz_le _),
    fetched_eq htag]
  simp [gathered, TxUnit.data]

theorem frame_eq (hload : ∀ s ∈ u.data, Loaded mem s) : gathered u = frame mem u := by
  unfold gathered frame
  apply List.flatMap_congr
  intro s hs
  exact hload s hs

theorem popped_all_iff (hu : Plain u) :
    copyCnt u.data (bufSzSum u.data) = u.data.length ↔
      (∀ s ∈ u.inner, tagLow s.d1 = 0) ∧ txBufSz u.last.d1 ≠ 0 := by
  have hmtu := hu.mtu
  have hsmall : LanTx.mtu < 0x4000 := by
    unfold LanTx.mtu
    decide
  rw [TxUnit.data, List.length_append, List.length_singleton, copyCnt_last, ← TxUnit.data, bufSzSum_data]
  rw [bufSzSum_data] at hmtu
  constructor
  · intro h
    have htag : ∀ s ∈ u.inner, tagLow s.d1 = 0 := by
      intro s hs
      have hle := le_pktLenSum hs
      rw [pktLen16_eq] at hle
      by_contra hne
      omega
    rw [pktLenSum_eq htag] at h
    exact ⟨htag, by omega⟩
  · rintro ⟨htag, hlast⟩
    rw [pktLenSum_eq htag]
    omega

end

end Vmux.TxPlain
