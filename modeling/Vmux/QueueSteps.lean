import Vmux.DescriptorQueue

namespace Vmux.DescriptorQueue

open Bytes CircularWindow Transitions

theorem bind_ok {α β : Type} {x : Except Fault α} {f : α → Except Fault β} {b : β}
    (h : (x >>= f) = .ok b) : ∃ a, x = .ok a ∧ f a = .ok b := by
  cases x with
  | error e => cases h
  | ok a => exact ⟨a, rfl, h⟩

theorem bind_error {α β : Type} {x : Except Fault α} {f : α → Except Fault β} {e : Fault}
    (h : (x >>= f) = .error e) : x = .error e ∨ ∃ a, x = .ok a ∧ f a = .error e := by
  cases x with
  | error e' =>
    cases h
    exact .inl rfl
  | ok a => exact .inr ⟨a, rfl, h⟩

section

variable {ε ι σ κ : Type} {S : Subclass ε ι σ κ} {env : Env ε} {c c' : Config σ κ}

theorem triggerFetch_ok (he : c.q.enabled = true) (h : triggerFetch env c = .ok c') :
    (c.q.fetchCnt = 0 ∧ c' = c) ∨
      (c.q.fetchCnt ≠ 0 ∧ c.q.len ≠ 0 ∧ c' = { c with
        q := c.q.beginFetch
        stack := .fetchDone c.q.fetchPos c.q.fetchCnt 0
          (env.read c.q.fetchAddr (c.q.descLen * c.q.fetchCnt)) :: c.stack
        log := c.log ++ [.fetch c.q.fetchPos c.q.nextIdx c.q.fetchCnt c.q.fetchAddr] }) := by
  unfold triggerFetch at h
  split at h
  · simp_all
  split at h
  · cases h
  split at h
  · cases h
    exact .inl ⟨‹_›, rfl⟩
  split at h
  · cases h
  split at h
  · cases h
  · cases h
    exact .inr ⟨‹_›, ‹_›, rfl⟩

theorem triggerProcess_eq (he : c.q.enabled = true) :
    triggerProcess c = { c with stack := .processLoop c.q.firstUnprocessed 0 :: c.stack } := by
  simp [triggerProcess, he]

theorem applyEffect_ok {e : Effect σ κ} (h : applyEffect env c e = .ok c') :
    ∃ q, finish e.finished (setDatas e.datas (setDescs e.descs c.q)) = .ok q ∧ c' =
      { q := q
        client := e.client
        stack := (e.write.toList.map fun w => .dataWritten w.1) ++
          (e.next.toList.map Cmd.resume ++ c.stack)
        log := c.log ++ e.calls.map Event.call ++
          e.write.toList.map fun w => .dataWrite w.1 w.2.1 w.2.2 } := by
  obtain ⟨q, hq, h⟩ := bind_ok h
  refine ⟨q, hq, ?_⟩
  cases hw : e.write with
  | none =>
    simp only [hw] at h
    cases h
    simp
  | some w =>
    obtain ⟨p, addr, bytes⟩ := w
    simp only [hw] at h
    split at h
    · cases h
    · cases h
      simp

theorem processLoop_ok {i j : ℕ} (h : processLoop S env c i j = .ok c') :
    (¬(i + j < c.q.activeCnt ∧ c.q.stateAt (c.q.activeFirstPos + (i + j)) = .prepared) ∧ c' = c) ∨
      (i + j < c.q.activeCnt ∧ c.q.stateAt (c.q.activeFirstPos + (i + j)) = .prepared ∧
        ∃ p q e, p = slot maxActiveDescs (c.q.activeFirstPos + (i + j)) ∧
          q = c.q.setState p .processing ∧
          S.process env.client c.client q.ctxs p = .ok e ∧
          applyEffect env { c with
            q, stack := .processLoop i (j + 1) :: c.stack
            log := c.log ++ [.process p (q.ctxs p).index] } e = .ok c') := by
  unfold processLoop at h
  dsimp only at h
  split at h
  · rename_i hc
    obtain ⟨e, he, h⟩ := bind_ok h
    exact .inr ⟨hc.1, hc.2, _, _, e, rfl, rfl, he, h⟩
  · cases h
    exact .inl ⟨‹_›, rfl⟩

theorem fetchDone_ok {pos cnt i : ℕ} {buf : List UInt8} (h : fetchDone S c pos cnt i buf = .ok c') :
    (cnt ≤ i ∧ c' = { c with stack := trigger κ ++ c.stack }) ∨
      (i < cnt ∧ ∃ p d q, p = slot maxActiveDescs (pos + i) ∧
        d = slice buf (c.q.descLen * i) c.q.descLen ∧
        q = (c.q.modify p fun x => { x with state := .preparing, desc := d }) ∧
        ((S.prepare d = .prepared ∧ c' = { c with
            q := q.setState p .prepared
            stack := .fetchDone pos cnt (i + 1) buf :: c.stack }) ∨
          ∃ addr len, S.prepare d = .dataFetch addr len ∧ c' = { c with
            q := q.modify p (growData len)
            stack := .dataFetch p addr 0 len :: .fetchDone pos cnt (i + 1) buf :: c.stack })) := by
  unfold fetchDone at h
  split at h
  · refine .inr ⟨‹_›, _, _, _, rfl, rfl, rfl, ?_⟩
    dsimp only at h
    split at h
    · cases h
      exact .inl ⟨‹_›, rfl⟩
    · cases h
      exact .inr ⟨_, _, ‹_›, rfl⟩
    · cases h
  · cases h
    exact .inl ⟨by omega, rfl⟩

theorem dataFetch_ok {p : Slot} {addr off total : ℕ} (h : dataFetch env c p addr off total = .ok c') :
    ∃ n q, n = min (total - off) maxDmaSize ∧
      q = (c.q.modify p fun x => { x with data := overwrite x.data off (env.read (addr + off) n) }) ∧
      ((off + n < total ∧ c' = { c with
          q, log := c.log ++ [.dataRead p (addr + off) n]
          stack := .dataFetch p addr (off + n) total :: c.stack }) ∨
        (total ≤ off + n ∧ c' = { c with
          q := q.setState p .prepared, log := c.log ++ [.dataRead p (addr + off) n]
          stack := trigger κ ++ c.stack })) := by
  unfold dataFetch at h
  dsimp only at h
  split at h
  · cases h
  refine ⟨_, _, rfl, rfl, ?_⟩
  split at h
  · cases h
    exact .inl ⟨‹_›, rfl⟩
  split at h
  · cases h
    exact .inr ⟨by omega, rfl⟩
  · cases h

theorem dataWritten_ok {p : Slot} (h : dataWritten c p = .ok c') :
    c' = { c with q := c.q.setState p .processed, stack := trigger κ ++ c.stack } := by
  unfold dataWritten at h
  split at h
  · cases h
    rfl
  · cases h

/-- What a write-back logs: the descriptors themselves, or only the new head. -/
def writebackEvent (S : Subclass ε ι σ κ) (c : Config σ κ) : Event :=
  match S.headWriteBack c.client with
  | none => .writeBack c.q.activeFirstPos c.q.activeFirstIdx c.q.writebackCnt c.q.writebackAddr
      ((List.range c.q.writebackCnt).flatMap fun i => (c.q.ctx (c.q.activeFirstPos + i)).desc)
  | some addr => .headWriteBack c.q.activeFirstPos c.q.activeFirstIdx c.q.writebackCnt addr
      (leBytes 4 ((c.q.activeFirstIdx + c.q.writebackCnt) % c.q.len))

theorem markRange_desc (q : QueueBase) (first cnt : ℕ) (s : DescState) (k : ℕ) :
    ((q.markRange first cnt s).ctx k).desc = (q.ctx k).desc := by
  simp only [QueueBase.ctx, QueueBase.markRange, update]
  split <;> rfl

theorem triggerWriteback_ok (he : c.q.enabled = true) (h : triggerWriteback S env c = .ok c') :
    (c.q.writebackCnt = 0 ∧ c' = c) ∨
      (c.q.writebackCnt ≠ 0 ∧ c' = { c with
        q := c.q.markRange c.q.activeFirstPos c.q.writebackCnt .writingBack
        stack := .writebackDone c.q.activeFirstPos c.q.writebackCnt :: c.stack
        log := c.log ++ [writebackEvent S c] }) := by
  unfold triggerWriteback at h
  split at h
  · simp_all
  split at h
  · cases h
    exact .inl ⟨‹_›, rfl⟩
  refine .inr ⟨‹_›, ?_⟩
  dsimp only at h
  split at h
  · split at h
    · cases h
    · cases h
      simp only [writebackEvent, *, markRange_desc]
      rfl
  · split at h
    · cases h
    split at h
    · cases h
    · cases h
      simp only [writebackEvent, *]
      rfl

theorem writebackDone_ok {pos cnt : ℕ} (he : c.q.enabled = true) (h : writebackDone c pos cnt = .ok c') :
    c.q.len ≠ 0 ∧ c' = { c with
      q := (c.q.markRange pos cnt .writtenBack).bump
      stack := trigger κ ++ c.stack
      log := c.log ++ [.interrupt] } := by
  unfold writebackDone at h
  split at h
  · simp_all
  split at h
  · cases h
  split at h
  · cases h
  · cases h
    exact ⟨‹_›, rfl⟩

theorem resume_ok {k : κ} (h : resume S env c k = .ok c') :
    ∃ e, S.resume env.client c.client c.q.ctxs k = .ok e ∧ applyEffect env c e = .ok c' :=
  bind_ok h

theorem receive_ok {x : ι} (h : receive S env c x = .ok c') :
    ∃ k : Option κ, c' = { c with stack := (k.toList.map Cmd.resume) ++ c.stack } := by
  obtain ⟨k, -, h⟩ := bind_ok h
  cases h
  exact ⟨k, rfl⟩

end

end Vmux.DescriptorQueue
