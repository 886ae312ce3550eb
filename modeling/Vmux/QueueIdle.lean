import Vmux.RingSteps

namespace Vmux.DescriptorQueue

open Bytes CircularWindow Transitions Ownership

section

variable {ε ι σ κ : Type}

/-- Commands that end in another call of `trigger`. -/
def Cmd.wakes : Cmd κ → Bool
  | .fetchDone _ _ _ _ | .dataFetch _ _ _ _ | .dataWritten _ | .writebackDone _ _ => true
  | _ => false

/-- The subclass completes contexts only by writing their data. -/
def WriteOnly (S : Subclass ε ι σ κ) : Prop :=
  (∀ env s ctxs p e, S.process env s ctxs p = .ok e → e.finished = []) ∧
    ∀ env s ctxs k e, S.resume env s ctxs k = .ok e → e.finished = []

/-- Work begins outside the cascade only where it ends in `trigger`. -/
def Rouses (S : Subclass ε ι σ κ) : Prop :=
  WriteOnly S ∨ ∀ env s q x k, S.receive env s q x ≠ .ok (some k)

def Bottom (S : Subclass ε ι σ κ) (x : Cmd κ) : Prop :=
  x = .triggerWriteback ∨ x.wakes = true ∨ WriteOnly S ∧ ∃ k, x = .resume k

def WritesNext (x : Cmd κ) : Prop := x = .triggerWriteback ∨ x.wakes = true

def ProcessesNext (x : Cmd κ) : Prop :=
  x = .triggerProcess ∨ x.wakes = true ∨ ∃ i j, x = .processLoop i j ∧ i + j = 0

/-- Work that is possible at the front of the window is still ahead on the stack. -/
structure Awake (S : Subclass ε ι σ κ) (c : Config σ κ) : Prop where
  bottom : ∀ x, c.stack.getLast? = some x → Bottom S x
  processed : c.q.stateAt c.q.activeFirstPos = .processed → ∃ x ∈ c.stack, WritesNext x
  prepared : c.q.stateAt c.q.activeFirstPos = .prepared → ∃ x ∈ c.stack, ProcessesNext x

variable {S : Subclass ε ι σ κ} {env : Env ε} {c c' : Config σ κ} {cmd : Cmd κ} {rest : List (Cmd κ)}

theorem bottom_append (new : List (Cmd κ)) (hb : ∀ x, (cmd :: rest).getLast? = some x → Bottom S x)
    (hn : Bottom S cmd → ∀ x, new.getLast? = some x → Bottom S x) :
    ∀ x, (new ++ rest).getLast? = some x → Bottom S x := by
  intro x hx
  cases rest with
  | nil =>
    rw [List.append_nil] at hx
    exact hn (hb cmd rfl) x hx
  | cons y ys =>
    rw [List.getLast?_append_of_ne_nil _ (by simp)] at hx
    exact hb x (by rw [List.getLast?_cons_cons]; exact hx)

theorem not_bottom_mem (hb : ∀ x, (cmd :: rest).getLast? = some x → Bottom S x) (hc : ¬Bottom S cmd) :
    ∃ x ∈ rest, Bottom S x := by
  cases rest with
  | nil => exact absurd (hb cmd rfl) hc
  | cons y ys =>
    have hl : (y :: ys).getLast? = some ((y :: ys).getLast (by simp)) := List.getLast?_eq_some_getLast _
    refine ⟨_, List.getLast_mem (by simp), hb _ ?_⟩
    rw [List.getLast?_cons_cons]
    exact hl

theorem Awake.of_wakes (hb : ∀ x, c'.stack.getLast? = some x → Bottom S x)
    (hw : ∃ x ∈ c'.stack, x.wakes = true) : Awake S c' := by
  obtain ⟨x, hx, hw⟩ := hw
  exact ⟨hb, fun _ => ⟨x, hx, .inr hw⟩, fun _ => ⟨x, hx, .inr (.inl hw)⟩⟩

theorem Awake.of_trigger (hb : ∀ x, c'.stack.getLast? = some x → Bottom S x)
    (hs : c'.stack = trigger κ ++ rest) : Awake S c' := by
  refine ⟨hb, fun _ => ⟨.triggerWriteback, ?_, .inl rfl⟩, fun _ => ⟨.triggerProcess, ?_, .inl rfl⟩⟩
  · simp [hs, trigger]
  · simp [hs, trigger]

theorem trigger_bottom : ∀ x, (trigger κ).getLast? = some x → Bottom S x := by
  rintro x ⟨⟩
  exact .inl rfl

theorem writebackCnt_pos {q : QueueBase} (hw : Window q) (hl : q.len < 0x4000)
    (h : q.stateAt q.activeFirstPos = .processed) : q.writebackCnt ≠ 0 := by
  have hc : 0 < q.activeCnt := by
    by_contra hn
    have he := hw.rest 0 (by omega) (by decide)
    rw [Nat.add_zero, h] at he
    cases he
  have ha : 0 < q.writebackAvail := by
    by_contra hn
    have h0 : q.writebackAvail = 0 := by omega
    have hs := scan_stop (fun i => q.stateAt (q.activeFirstPos + i) ≠ .processed) q.activeCnt
      (by change q.writebackAvail < _; omega)
    change decide (q.stateAt (q.activeFirstPos + q.writebackAvail) ≠ .processed) = true at hs
    rw [h0, Nat.add_zero, h] at hs
    simp at hs
  have hi := hw.idx_lt
  have hm : 0 < min q.writebackAvail maxWritebackCapacity := lt_min ha (by decide)
  unfold QueueBase.writebackCnt
  dsimp only
  generalize min q.writebackAvail maxWritebackCapacity = m at *
  split
  · have hs : sub32 q.len q.activeFirstIdx = q.len - q.activeFirstIdx := by
      unfold sub32
      omega
    omega
  · omega

theorem firstUnprocessed_zero {q : QueueBase} (h : q.stateAt q.activeFirstPos = .prepared) :
    q.firstUnprocessed = 0 := by
  apply scan_eq (Nat.zero_le _)
  · simp
  · intro _
    rw [Nat.add_zero, h]
    rfl

theorem Awake.kept_processed (h : Awake S c) (hs : c.stack = cmd :: rest) (hc : ¬WritesNext cmd)
    (hp : c.q.stateAt c.q.activeFirstPos = .processed) : ∃ x ∈ rest, WritesNext x := by
  obtain ⟨x, hx, hw⟩ := h.processed hp
  rw [hs, List.mem_cons] at hx
  rcases hx with rfl | hx
  · exact absurd hw hc
  · exact ⟨x, hx, hw⟩

theorem Awake.kept_prepared (h : Awake S c) (hs : c.stack = cmd :: rest) (hc : ¬ProcessesNext cmd)
    (hp : c.q.stateAt c.q.activeFirstPos = .prepared) : ∃ x ∈ rest, ProcessesNext x := by
  obtain ⟨x, hx, hw⟩ := h.prepared hp
  rw [hs, List.mem_cons] at hx
  rcases hx with rfl | hx
  · exact absurd hw hc
  · exact ⟨x, hx, hw⟩

theorem Awake.triggerFetch (h : Awake S c) (hi : Inv S c) (hs : c.stack = .triggerFetch :: rest)
    (he : triggerFetch env { c with stack := rest } = .ok c') : Awake S c' := by
  have hb := h.bottom
  rw [hs] at hb
  have hn : ¬Bottom S (.triggerFetch : Cmd κ) := by simp [Bottom, Cmd.wakes]
  rcases triggerFetch_ok (c := { c with stack := rest }) hi.enabled he with ⟨-, rfl⟩ | ⟨-, -, rfl⟩
  · exact ⟨bottom_append [] hb (absurd · hn), h.kept_processed hs (by simp [WritesNext, Cmd.wakes]),
      h.kept_prepared hs (by simp [ProcessesNext, Cmd.wakes])⟩
  · exact .of_wakes (bottom_append [_] hb (absurd · hn)) ⟨_, List.mem_cons_self, rfl⟩

theorem Awake.triggerProcess (h : Awake S c) (hi : Inv S c) (hs : c.stack = .triggerProcess :: rest) :
    Awake S (triggerProcess { c with stack := rest }) := by
  have hb := h.bottom
  rw [hs] at hb
  rw [triggerProcess_eq (c := { c with stack := rest }) hi.enabled]
  refine ⟨bottom_append [_] hb (absurd · ?_), fun hp => ?_, fun hp => ?_⟩
  · simp [Bottom, Cmd.wakes]
  · obtain ⟨x, hx, hw⟩ := h.kept_processed hs (by simp [WritesNext, Cmd.wakes]) hp
    exact ⟨x, List.mem_cons_of_mem _ hx, hw⟩
  · refine ⟨_, List.mem_cons_self, .inr (.inr ⟨_, _, rfl, ?_⟩)⟩
    exact firstUnprocessed_zero hp

theorem Awake.triggerWriteback (h : Awake S c) (hi : Inv S c) (hs : c.stack = .triggerWriteback :: rest)
    (he : triggerWriteback S env { c with stack := rest } = .ok c') : Awake S c' := by
  have hb := h.bottom
  rw [hs] at hb
  rcases triggerWriteback_ok (c := { c with stack := rest }) hi.enabled he with ⟨h0, rfl⟩ | ⟨-, rfl⟩
  · refine ⟨bottom_append [] hb (by simp), fun hp => ?_, ?_⟩
    · exact absurd h0 (writebackCnt_pos hi.window hi.len_lt hp)
    · exact h.kept_prepared hs (by simp [ProcessesNext, Cmd.wakes])
  · refine .of_wakes (bottom_append [_] hb ?_) ⟨_, List.mem_cons_self, rfl⟩
    rintro - x ⟨⟩
    exact .inr (.inl rfl)

theorem Awake.fetchDone {pos cnt i : ℕ} {buf : List UInt8} (h : Awake S c)
    (hs : c.stack = .fetchDone pos cnt i buf :: rest)
    (he : fetchDone S { c with stack := rest } pos cnt i buf = .ok c') : Awake S c' := by
  have hb := h.bottom
  rw [hs] at hb
  rcases fetchDone_ok he with ⟨-, rfl⟩ | ⟨-, p, d, q, -, -, -, ⟨-, rfl⟩ | ⟨addr, len, -, rfl⟩⟩
  · exact .of_trigger (bottom_append _ hb fun _ => trigger_bottom) rfl
  · refine .of_wakes (bottom_append [_] hb ?_) ⟨_, List.mem_cons_self, rfl⟩
    rintro - x ⟨⟩
    exact .inr (.inl rfl)
  · refine .of_wakes (bottom_append [_, _] hb ?_) ⟨_, List.mem_cons_self, rfl⟩
    rintro - x ⟨⟩
    exact .inr (.inl rfl)

theorem Awake.dataFetch {p : Slot} {addr off total : ℕ} (h : Awake S c)
    (hs : c.stack = .dataFetch p addr off total :: rest)
    (he : dataFetch env { c with stack := rest } p addr off total = .ok c') : Awake S c' := by
  have hb := h.bottom
  rw [hs] at hb
  obtain ⟨n, q, -, -, ⟨-, rfl⟩ | ⟨-, rfl⟩⟩ := dataFetch_ok he
  · refine .of_wakes (bottom_append [_] hb ?_) ⟨_, List.mem_cons_self, rfl⟩
    rintro - x ⟨⟩
    exact .inr (.inl rfl)
  · exact .of_trigger (bottom_append _ hb fun _ => trigger_bottom) rfl

theorem Awake.applied {e : Effect σ κ} (hb : ∀ x, c'.stack.getLast? = some x → Bottom S x) (ha : Applied c e c')
    (hw : e.finished ≠ [] → ∃ x ∈ c.stack, WritesNext x)
    (hprocessed : c.q.stateAt c.q.activeFirstPos = .processed → ∃ x ∈ c'.stack, WritesNext x)
    (hprepared : c.q.stateAt c.q.activeFirstPos = .prepared → ∃ x ∈ c.stack, ProcessesNext x) : Awake S c' := by
  have hpos : c'.q.activeFirstPos = c.q.activeFirstPos := congr_arg Ring.firstPos ha.ring
  refine ⟨hb, ?_, ?_⟩
  · rw [hpos]
    intro hp
    rcases ha.states (slot maxActiveDescs c.q.activeFirstPos) with ⟨-, hst⟩ | ⟨hm, -, -⟩
    · exact hprocessed (hst.symm.trans hp)
    · obtain ⟨x, hx, h⟩ := hw (List.ne_nil_of_mem hm)
      exact ⟨x, by simp [ha.stack, hx], h⟩
  · rw [hpos]
    intro hp
    rcases ha.states (slot maxActiveDescs c.q.activeFirstPos) with ⟨-, hst⟩ | ⟨-, -, hst⟩
    · obtain ⟨x, hx, h⟩ := hprepared (hst.symm.trans hp)
      exact ⟨x, by simp [ha.stack, hx], h⟩
    · rw [stateAt_eq, hst] at hp
      cases hp

theorem Window.cnt_pos {q : QueueBase} (h : Window q) (hs : q.stateAt q.activeFirstPos ≠ .empty) :
    0 < q.activeCnt := by
  by_contra hn
  have he := h.rest 0 (by omega) (by decide)
  rw [Nat.add_zero] at he
  exact hs he

theorem bottom_writesNext (h : ∃ x ∈ rest, Bottom S x) (hw : ¬WriteOnly S) : ∃ x ∈ rest, WritesNext x := by
  obtain ⟨x, hx, h | h | h⟩ := h
  · exact ⟨x, hx, .inl h⟩
  · exact ⟨x, hx, .inr h⟩
  · exact absurd h.1 hw

theorem Awake.processLoop {i j : ℕ} (h : Awake S c) (hi : Inv S c) (hs : c.stack = .processLoop i j :: rest)
    (he : processLoop S env { c with stack := rest } i j = .ok c') : Awake S c' := by
  have hb := h.bottom
  rw [hs] at hb
  have hn : ¬Bottom S (.processLoop i j : Cmd κ) := by simp [Bottom, Cmd.wakes]
  have hw : ¬WritesNext (.processLoop i j : Cmd κ) := by simp [WritesNext, Cmd.wakes]
  have hj : ProcessesNext (.processLoop i j : Cmd κ) → i + j = 0 := by
    rintro (h | h | ⟨i', j', h, h0⟩)
    · cases h
    · cases h
    · cases h
      exact h0
  rcases processLoop_ok he with ⟨hnot, rfl⟩ | ⟨-, -, p, q, e, rfl, rfl, hp, ha⟩
  · refine ⟨bottom_append [] hb (absurd · hn), h.kept_processed hs hw, fun hp => ?_⟩
    refine h.kept_prepared hs (fun h0 => hnot ?_) hp
    rw [hj h0]
    exact ⟨hi.window.cnt_pos (by rw [hp]; simp), hp⟩
  · have ha := applyEffect_applied ha
    have hst := ha.stack
    refine Awake.applied ?_ ha ?_ ?_ ?_
    · rw [hst]
      have happ : e.cmds ++ .processLoop i (j + 1) :: rest = (e.cmds ++ [.processLoop i (j + 1)]) ++ rest := by simp
      rw [happ]
      exact bottom_append _ hb (absurd · hn)
    · intro hf
      have hwo : ¬WriteOnly S := fun hwo => hf (hwo.1 _ _ _ _ _ hp)
      obtain ⟨x, hx, hx'⟩ := bottom_writesNext (not_bottom_mem hb hn) hwo
      exact ⟨x, List.mem_cons_of_mem _ hx, hx'⟩
    · intro hf
      change (c.q.setState _ .processing).states (slot maxActiveDescs c.q.activeFirstPos) = _ at hf
      rw [states_setState, Function.update_apply] at hf
      split at hf
      · cases hf
      · obtain ⟨x, hx, hx'⟩ := h.kept_processed hs hw hf
        exact ⟨x, by simp [hst, hx], hx'⟩
    · intro hf
      change (c.q.setState _ .processing).states (slot maxActiveDescs c.q.activeFirstPos) = _ at hf
      rw [states_setState, Function.update_apply] at hf
      split at hf
      · cases hf
      · rename_i hne
        have hnp : ¬ProcessesNext (.processLoop i j : Cmd κ) := by
          intro h0
          rw [hj h0] at hne
          exact hne rfl
        obtain ⟨x, hx, hx'⟩ := h.kept_prepared hs hnp hf
        exact ⟨x, List.mem_cons_of_mem _ hx, hx'⟩

theorem Effect.cmds_bottom {e : Effect σ κ} (hw : WriteOnly S) :
    ∀ x, e.cmds.getLast? = some x → Bottom S x := by
  intro x hx
  have hm : x ∈ e.cmds := List.mem_of_getLast? hx
  simp only [Effect.cmds, List.mem_append, List.mem_map] at hm
  rcases hm with ⟨_, -, rfl⟩ | ⟨k, -, rfl⟩
  · exact .inr (.inl rfl)
  · exact .inr (.inr ⟨hw, k, rfl⟩)

theorem Awake.resume {k : κ} (h : Awake S c) (hs : c.stack = .resume k :: rest)
    (he : resume S env { c with stack := rest } k = .ok c') : Awake S c' := by
  have hb := h.bottom
  rw [hs] at hb
  obtain ⟨e, hr, ha⟩ := resume_ok he
  have ha := applyEffect_applied ha
  have hw : ¬WritesNext (.resume k : Cmd κ) := by simp [WritesNext, Cmd.wakes]
  refine Awake.applied ?_ ha ?_ ?_ ?_
  · rw [ha.stack]
    refine bottom_append _ hb ?_
    rintro (h | h | ⟨hwo, -⟩)
    · cases h
    · cases h
    · exact e.cmds_bottom hwo
  · intro hf
    have hwo : ¬WriteOnly S := fun hwo => hf (hwo.2 _ _ _ _ _ hr)
    refine bottom_writesNext (not_bottom_mem hb ?_) hwo
    rintro (h | h | h)
    · cases h
    · cases h
    · exact hwo h.1
  · intro hf
    obtain ⟨x, hx, hx'⟩ := h.kept_processed hs hw hf
    exact ⟨x, by simp [ha.stack, hx], hx'⟩
  · exact h.kept_prepared hs (by simp [ProcessesNext, Cmd.wakes])

theorem Awake.exec (h : Awake S c) (hi : Inv S c) (hs : c.stack = cmd :: rest)
    (he : exec S env { c with stack := rest } cmd = .ok c') : Awake S c' := by
  have hb := h.bottom
  rw [hs] at hb
  cases cmd with
  | triggerFetch => exact h.triggerFetch hi hs he
  | triggerProcess =>
    cases he
    exact h.triggerProcess hi hs
  | triggerWriteback => exact h.triggerWriteback hi hs he
  | processLoop i j => exact h.processLoop hi hs he
  | fetchDone pos cnt i buf => exact h.fetchDone hs he
  | dataFetch p addr off total => exact h.dataFetch hs he
  | dataWritten p =>
    rw [dataWritten_ok he]
    exact .of_trigger (bottom_append _ hb fun _ => trigger_bottom) rfl
  | writebackDone pos n =>
    obtain ⟨-, rfl⟩ := writebackDone_ok (c := { c with stack := rest }) hi.enabled he
    exact .of_trigger (bottom_append _ hb fun _ => trigger_bottom) rfl
  | resume k => exact h.resume hs he

theorem Awake.step (hS : Rouses S) (h : Awake S c) (hi : Inv S c) (hs : QueueStep S c c') : Awake S c' := by
  cases hs with
  | exec env cmd rest hs he => exact h.exec hi hs he
  | tail t _ hs he =>
    have hst : (tailWrite c t).stack = trigger κ ++ [] := by simp [tailWrite, hi.enabled, hs]
    rw [he]
    refine .of_trigger ?_ hst
    rw [hst, List.append_nil]
    exact trigger_bottom
  | receive env x hs he =>
    obtain ⟨k, hk, he⟩ := bind_ok he
    cases he
    refine ⟨?_, fun hp => ?_, fun hp => ?_⟩
    · cases k with
      | none =>
        rw [hs]
        simp
      | some k =>
        rw [hs]
        rintro x ⟨⟩
        rcases hS with hw | hr
        · exact .inr (.inr ⟨hw, k, rfl⟩)
        · exact absurd hk (hr _ _ _ _ _)
    · obtain ⟨x, hx, -⟩ := h.processed hp
      rw [hs] at hx
      cases hx
    · obtain ⟨x, hx, -⟩ := h.prepared hp
      rw [hs] at hx
      cases hx

theorem Awake.start {base len : ℕ} (h : Enabled S base len c) : Awake S c :=
  .of_trigger (by rw [h.stack]; exact trigger_bottom) (show c.stack = trigger κ ++ [] by rw [h.stack, List.append_nil])

theorem Awake.reachable {base len : ℕ} (hS : Rouses S) (h : (machine S base len).Reachable c) : Awake S c :=
  h.strengthen (fun _ => Inv.reachable) (fun _ => Awake.start) fun _ _ hi _ h hs => h.step hS hi hs

/-- At rest the oldest descriptor of the window, if there is one, waits inside the subclass. -/
theorem rest_held {base len : ℕ} (hS : Rouses S) (h : (machine S base len).Reachable c) (hs : c.stack = [])
    (hc : 0 < c.q.activeCnt) : slot maxActiveDescs c.q.activeFirstPos ∈ S.held c.client := by
  have hi := Inv.reachable h
  have ha := Awake.reachable hS h
  have he := (hi.window.active 0 hc).1
  rw [Nat.add_zero] at he
  have hw := hi.settled.states (slot maxActiveDescs c.q.activeFirstPos)
  have hprocessed : c.q.stateAt c.q.activeFirstPos ≠ .processed := by
    intro hp
    obtain ⟨x, hx, -⟩ := ha.processed hp
    rw [hs] at hx
    cases hx
  have hprepared : c.q.stateAt c.q.activeFirstPos ≠ .prepared := by
    intro hp
    obtain ⟨x, hx, -⟩ := ha.prepared hp
    rw [hs] at hx
    cases hx
  have hbusy : Busy (c.q.states (slot maxActiveDescs c.q.activeFirstPos)) := by
    rw [stateAt_eq] at he hprocessed hprepared
    cases hst : c.q.states (slot maxActiveDescs c.q.activeFirstPos) <;> simp_all [Busy]
  have hm := (hi.owned.2 _ _).mpr ⟨rfl, hbusy⟩
  simp only [claims, hs, List.flatMap_nil, List.nil_append, List.mem_map] at hm
  obtain ⟨p, hp, heq⟩ := hm
  rw [Prod.mk.injEq] at heq
  rw [← heq.1]
  exact hp

theorem fetchCnt_congr {q q' : QueueBase} (h : q'.ring = q.ring) : q'.fetchCnt = q.fetchCnt := by
  obtain ⟨-, h2, -, h4, -, -, h7, h8⟩ := Ring.mk.inj h
  have hn : q'.nextIdx = q.nextIdx := by simp only [QueueBase.nextIdx, h2, h7, h8]
  have ha : q'.descAvail = q.descAvail := by simp only [QueueBase.descAvail, hn, h2, h4]
  have hl : q'.len = q.len := h2
  have hc : q'.activeCnt = q.activeCnt := h8
  rw [QueueBase.fetchCnt, QueueBase.fetchCnt, hn, ha, hl, hc]

def FetchesNext (x : Cmd κ) : Prop := x = .triggerFetch ∨ x.wakes = true

/-- Descriptors that could be fetched are: `trigger_fetch` is still ahead on the stack. -/
def Fetching (c : Config σ κ) : Prop := c.q.fetchCnt ≠ 0 → ∃ x ∈ c.stack, FetchesNext x

theorem Fetching.kept (h : Fetching c) (hs : c.stack = cmd :: rest) (hn : ¬FetchesNext cmd)
    (hr : c'.q.ring = c.q.ring) (hst : ∀ x ∈ rest, x ∈ c'.stack) : Fetching c' := by
  intro hf
  rw [fetchCnt_congr hr] at hf
  obtain ⟨x, hx, hx'⟩ := h hf
  rw [hs] at hx
  rcases List.mem_cons.mp hx with rfl | hx
  · exact absurd hx' hn
  · exact ⟨x, hst x hx, hx'⟩

theorem Fetching.of_trigger (l : List (Cmd κ)) (hst : c'.stack = trigger κ ++ l) : Fetching c' := by
  intro _
  refine ⟨.triggerFetch, ?_, .inl rfl⟩
  rw [hst]
  exact List.mem_cons_self

theorem Fetching.exec (h : Fetching c) (he : c.q.enabled = true) (hs : c.stack = cmd :: rest)
    (hx : exec S env { c with stack := rest } cmd = .ok c') : Fetching c' := by
  have hwake : ∀ {x : Cmd κ} {l : List (Cmd κ)}, c'.stack = x :: l → x.wakes = true → Fetching c' := by
    intro x l hst hw _
    exact ⟨x, by rw [hst]; exact List.mem_cons_self, .inr hw⟩
  cases cmd with
  | triggerFetch =>
    rcases triggerFetch_ok (c := { c with stack := rest }) he hx with ⟨hz, rfl⟩ | ⟨-, -, rfl⟩
    · exact fun hn => absurd hz hn
    · exact hwake rfl rfl
  | triggerProcess =>
    cases hx
    rw [triggerProcess_eq (c := { c with stack := rest }) he]
    exact h.kept hs (by simp [FetchesNext, Cmd.wakes]) rfl fun x hx => List.mem_cons_of_mem _ hx
  | triggerWriteback =>
    rcases triggerWriteback_ok (c := { c with stack := rest }) he hx with ⟨-, rfl⟩ | ⟨-, rfl⟩
    · exact h.kept hs (by simp [FetchesNext, Cmd.wakes]) rfl fun x hx => hx
    · exact hwake rfl rfl
  | processLoop i j =>
    rcases processLoop_ok hx with ⟨-, rfl⟩ | ⟨-, -, p, q, e, rfl, rfl, -, ha⟩
    · exact h.kept hs (by simp [FetchesNext, Cmd.wakes]) rfl fun x hx => hx
    · have ha := applyEffect_applied ha
      refine h.kept hs (by simp [FetchesNext, Cmd.wakes]) ha.ring ?_
      intro x hx
      rw [ha.stack]
      exact List.mem_append_right _ (List.mem_cons_of_mem _ hx)
  | fetchDone pos cnt i buf =>
    rcases fetchDone_ok hx with ⟨-, rfl⟩ | ⟨-, p, d, q, -, -, -, ⟨-, rfl⟩ | ⟨addr, len, -, rfl⟩⟩
    · exact .of_trigger rest rfl
    · exact hwake rfl rfl
    · exact hwake rfl rfl
  | dataFetch p addr off total =>
    obtain ⟨n, q, -, -, ⟨-, rfl⟩ | ⟨-, rfl⟩⟩ := dataFetch_ok hx
    · exact hwake rfl rfl
    · exact .of_trigger rest rfl
  | dataWritten p =>
    rw [dataWritten_ok hx]
    exact .of_trigger rest rfl
  | writebackDone pos n =>
    rw [(writebackDone_ok (c := { c with stack := rest }) he hx).2]
    exact .of_trigger rest rfl
  | resume k =>
    obtain ⟨e, -, ha⟩ := resume_ok hx
    have ha := applyEffect_applied ha
    refine h.kept hs (by simp [FetchesNext, Cmd.wakes]) ha.ring ?_
    intro x hx
    rw [ha.stack]
    exact List.mem_append_right _ hx

theorem Fetching.step (h : Fetching c) (hi : Inv S c) (hs : QueueStep S c c') : Fetching c' := by
  cases hs with
  | exec env cmd rest hs hx => exact h.exec hi.enabled hs hx
  | tail t _ hs hx =>
    subst hx
    refine .of_trigger c.stack ?_
    simp only [tailWrite, hi.enabled, if_true]
  | receive env x hs hx =>
    obtain ⟨k, rfl⟩ := receive_ok hx
    intro hn
    obtain ⟨y, hy, hy'⟩ := h hn
    exact ⟨y, List.mem_append_right _ hy, hy'⟩

theorem Fetching.reachable {base len : ℕ} (h : (machine S base len).Reachable c) : Fetching c := by
  refine h.strengthen (fun _ => Inv.reachable) ?_ fun _ _ hi _ hf hs => hf.step hi hs
  intro c h
  exact .of_trigger [] (by rw [h.stack, List.append_nil])

end

end Vmux.DescriptorQueue
