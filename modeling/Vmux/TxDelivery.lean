import Vmux.TxUnits

namespace Vmux.TxDelivery

open Bytes DescriptorQueue LanTx TxUnits

structure TxState where
  tso : TsoState
  ready : List Segment

/-- A complete run of the loop in `trigger_tx`: the calls it makes and how many descriptors it finishes. -/
inductive TriggerTx (accept : ℕ → Bool) : TxState → List Output → ℕ → TxState → Prop
  | stop {s : TxState} (h : triggerTxPacket accept s.tso s.ready = .ok none) : TriggerTx accept s [] 0 s
  | turn {s s' : TxState} {sent : Sent} {calls : List Output} {n : ℕ}
      (h : triggerTxPacket accept s.tso s.ready = .ok (some sent))
      (hs : TriggerTx accept ⟨sent.tso, s.ready.drop sent.popped⟩ calls n s') :
      TriggerTx accept s (sent.calls ++ calls) (sent.popped + n) s'

/-- One `process()` call for each descriptor in turn. -/
inductive Deliver (accept : ℕ → Bool) : TxState → List Segment → List Output → ℕ → TxState → Prop
  | nil (s : TxState) : Deliver accept s [] [] 0 s
  | cons {s s' s'' : TxState} {x : Segment} {xs : List Segment} {calls calls' : List Output} {n n' : ℕ}
      (h : TriggerTx accept ⟨s.tso, s.ready ++ [x]⟩ calls n s') (hs : Deliver accept s' xs calls' n' s'') :
      Deliver accept s (x :: xs) (calls ++ calls') (n + n') s''

theorem TriggerTx.cases {accept : ℕ → Bool} {s s' : TxState} {calls : List Output} {n : ℕ}
    (h : TriggerTx accept s calls n s') :
    (triggerTxPacket accept s.tso s.ready = .ok none ∧ calls = [] ∧ n = 0 ∧ s' = s) ∨
      ∃ sent calls' n', triggerTxPacket accept s.tso s.ready = .ok (some sent) ∧ calls = sent.calls ++ calls' ∧
        n = sent.popped + n' ∧ TriggerTx accept ⟨sent.tso, s.ready.drop sent.popped⟩ calls' n' s' := by
  cases h with
  | stop h => exact .inl ⟨h, rfl, rfl, rfl⟩
  | turn h hs => exact .inr ⟨_, _, _, h, rfl, rfl, hs⟩

theorem TriggerTx.unique {accept : ℕ → Bool} {s s₁ s₂ : TxState} {calls₁ calls₂ : List Output} {n₁ n₂ : ℕ}
    (h₁ : TriggerTx accept s calls₁ n₁ s₁) (h₂ : TriggerTx accept s calls₂ n₂ s₂) :
    calls₁ = calls₂ ∧ n₁ = n₂ ∧ s₁ = s₂ := by
  induction h₁ generalizing calls₂ n₂ with
  | stop h =>
    rcases h₂.cases with ⟨-, rfl, rfl, rfl⟩ | ⟨sent, calls', n', h', -⟩
    · exact ⟨rfl, rfl, rfl⟩
    · rw [h] at h'
      cases h'
  | turn h hs ih =>
    rcases h₂.cases with ⟨h', -⟩ | ⟨sent, calls', n', h', rfl, rfl, hrest⟩
    · rw [h] at h'
      cases h'
    · rw [h] at h'
      cases h'
      obtain ⟨rfl, rfl, rfl⟩ := ih hrest
      exact ⟨rfl, rfl, rfl⟩

theorem TriggerTx.never {accept : ℕ → Bool} {P : TxState → Prop}
    (hstop : ∀ s, P s → triggerTxPacket accept s.tso s.ready ≠ .ok none)
    (hturn : ∀ s sent, P s → triggerTxPacket accept s.tso s.ready = .ok (some sent) →
      P ⟨sent.tso, s.ready.drop sent.popped⟩)
    {s s' : TxState} {calls : List Output} {n : ℕ} (hs : P s) : ¬TriggerTx accept s calls n s' := by
  intro h
  induction h with
  | stop h => exact hstop _ hs h
  | turn h _ ih => exact ih (hturn _ _ hs h)

/-- A transmit unit: an optional context descriptor, then data descriptors up to the first EOP. -/
structure TxUnit where
  ctx : Option Segment
  inner : List Segment
  last : Segment
  ctx_dtype : ∀ c ∈ ctx, dtype c.d1 = dtypeCtx
  inner_data : ∀ s ∈ inner, Inner s
  last_data : Last last
  full : ∀ s ∈ inner ++ [last], Full s

namespace TxUnit

variable (u : TxUnit)

def data : List Segment := u.inner ++ [u.last]

def segs : List Segment := u.ctx.toList ++ u.data

def lead : Lead :=
  match u.ctx with
  | some c => ⟨1, ctxTso c.d1, ctxMss c.d1⟩
  | none => ⟨0, false, 0⟩

def scan : EopScan := EopScan.unit u.lead.dSkip u.inner u.last

theorem full_data : ∀ s ∈ u.data, Full s := u.full

theorem totalLen_eq : u.scan.totalLen = bufSzSum u.data := rfl

theorem dSkip_eq : u.lead.dSkip = u.ctx.toList.length := by
  unfold lead
  cases u.ctx <;> rfl

theorem segs_length : u.segs.length = u.lead.dSkip + u.data.length := by
  rw [segs, List.length_append, dSkip_eq]

theorem drop_segs : u.segs.drop u.lead.dSkip = u.data := by
  rw [dSkip_eq, segs, List.drop_left]

theorem take_segs : u.segs.take u.scan.dcnt = u.segs := by
  apply List.take_of_length_le
  rw [segs_length]
  simp [scan, EopScan.unit, data]
  omega

theorem segs_cons : ∃ x xs, u.segs = x :: xs ∧ LanTx.lead x = u.lead := by
  unfold segs lead data
  cases hc : u.ctx with
  | some c => exact ⟨c, _, rfl, by rw [LanTx.lead, if_pos (u.ctx_dtype c hc)]⟩
  | none =>
    cases hi : u.inner with
    | nil => exact ⟨u.last, [], rfl, by rw [LanTx.lead, u.last_data.1, if_neg (by decide)]⟩
    | cons x xs => exact ⟨x, _, rfl, by rw [LanTx.lead, (u.inner_data x (by simp [hi])).1, if_neg (by decide)]⟩

theorem packet_eq (accept : ℕ → Bool) (t : TsoState) :
    triggerTxPacket accept t u.segs = (sendUnit accept t u.segs u.lead u.scan).map some := by
  obtain ⟨x, xs, hx, hl⟩ := u.segs_cons
  have hscan : eopScan (u.segs.drop u.lead.dSkip) (.start u.lead.dSkip) = .ok u.scan := by
    rw [drop_segs]
    exact eopScan_unit _ u.inner_data u.last_data
  rw [hx] at hscan ⊢
  rw [triggerTxPacket, hl, hscan]
  change (do let sent ← sendUnit accept t (x :: xs) u.lead u.scan; Except.ok (some sent)) = _
  cases sendUnit accept t (x :: xs) u.lead u.scan <;> rfl

theorem packet_prefix (accept : ℕ → Bool) (t : TsoState) {pre post : List Segment} (hpost : post ≠ [])
    (h : pre ++ post = u.segs) : triggerTxPacket accept t pre = .ok none := by
  cases pre with
  | nil => rfl
  | cons x xs =>
    obtain ⟨y, ys, hy, hl⟩ := u.segs_cons
    obtain rfl : x = y := by
      rw [hy] at h
      exact (List.cons.inj h).1
    have hinner : ∀ s ∈ (x :: xs).drop u.lead.dSkip, Inner s := by
      have hd : (x :: xs).drop u.lead.dSkip ++ post = u.inner ++ [u.last] := by
        have := congrArg (List.drop u.lead.dSkip) h
        rw [drop_segs, List.drop_append_of_le_length] at this
        · exact this
        · rw [dSkip_eq]
          cases u.ctx <;> simp
      obtain ⟨a, z, rfl⟩ := List.eq_nil_or_concat post |>.resolve_left hpost
      rw [List.concat_eq_append, ← List.append_assoc] at hd
      have := (List.append_inj' hd rfl).1
      intro s hs
      exact u.inner_data s (this ▸ List.mem_append_left a hs)
    obtain ⟨r, hr, heop⟩ := eopScan_inner (r := .start u.lead.dSkip) rfl hinner
    rw [triggerTxPacket, hl, hr]
    change (if (!r.eop) = true then _ else _) = _
    rw [heop]
    rfl

theorem deliver_segs_aux (accept : ℕ → Bool) (t : TsoState) (post pre : List Segment) (hpost : post ≠ [])
    (h : pre ++ post = u.segs) {calls : List Output} {n : ℕ} {s' : TxState} :
    Deliver accept ⟨t, pre⟩ post calls n s' ↔ TriggerTx accept ⟨t, u.segs⟩ calls n s' := by
  induction post generalizing pre calls n with
  | nil => exact absurd rfl hpost
  | cons x post ih =>
    cases post with
    | nil =>
      constructor
      · rintro ⟨⟩
        rename_i hloop hrest
        cases hrest
        rw [List.append_nil, Nat.add_zero, ← h]
        exact hloop
      · intro hloop
        have := Deliver.cons (s := ⟨t, pre⟩) (x := x) (by rw [h]; exact hloop) (.nil s')
        simpa using this
    | cons y post =>
      have hpre : (pre ++ [x]) ++ (y :: post) = u.segs := by simpa using h
      have hwait := u.packet_prefix accept t (by simp) hpre
      constructor
      · intro hd
        obtain ⟨⟩ := hd
        rename_i hloop hrest
        cases hloop with
        | stop =>
          rw [List.nil_append, Nat.zero_add]
          exact (ih (pre ++ [x]) (by simp) hpre).mp hrest
        | turn hs => rw [hwait] at hs; cases hs
      · intro hloop
        have := Deliver.cons (s := ⟨t, pre⟩) (x := x) (.stop hwait)
          ((ih (pre ++ [x]) (by simp) hpre).mpr hloop)
        simpa using this

/-- However its descriptors arrive, a unit is handled by the call that brings the last of them. -/
theorem deliver_segs (accept : ℕ → Bool) (t : TsoState) {calls : List Output} {n : ℕ} {s' : TxState} :
    Deliver accept ⟨t, []⟩ u.segs calls n s' ↔ TriggerTx accept ⟨t, u.segs⟩ calls n s' := by
  obtain ⟨x, xs, hx, -⟩ := u.segs_cons
  exact u.deliver_segs_aux accept t u.segs [] (by simp [hx]) rfl

end TxUnit

end Vmux.TxDelivery
