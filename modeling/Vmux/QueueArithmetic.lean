import Vmux.NicSteps
import Vmux.RxDelivery

namespace Vmux.QueueArithmetic

open Bytes Transitions DescriptorQueue AdminQueue LanRx LanTx Registers SwitchIsolation Nic

section

variable {ε ι σ κ : Type} {S : Subclass ε ι σ κ} {env : Env ε} {c c' : Config σ κ} {cmd : Cmd κ} {rest : List (Cmd κ)}

/-- The divisors of a function are not zero, and what it subtracts from `len` is at most `len`. -/
def Sensible (S : Subclass ε ι σ κ) (c : Config σ κ) : Cmd κ → Prop
  | .triggerFetch => c.q.enabled = true → c.q.len ≠ 0 ∧ c.q.nextIdx ≤ c.q.len
  | .triggerWriteback => c.q.enabled = true →
      (c.q.len < c.q.activeFirstIdx + min c.q.writebackAvail maxWritebackCapacity → c.q.activeFirstIdx ≤ c.q.len) ∧
      ((S.headWriteBack c.client).isSome → c.q.writebackCnt ≠ 0 → c.q.len ≠ 0)
  | .writebackDone _ _ => c.q.enabled = true → c.q.len ≠ 0
  | _ => True

def Sized (q : QueueBase) : Prop := q.enabled = true → 1 ≤ q.len ∧ q.activeFirstIdx ≤ q.len

theorem sensible_iff : (∀ cmd, Sensible S c cmd) ↔ Sized c.q := by
  constructor
  · intro h he
    have hf := (h .triggerFetch he).1
    have hw := (h .triggerWriteback he).1
    omega
  · intro h cmd
    cases cmd with
    | triggerFetch =>
      intro he
      have hl := (h he).1
      exact ⟨by omega, (Nat.mod_lt _ (by omega)).le⟩
    | triggerWriteback =>
      intro he
      have hl := h he
      exact ⟨fun _ => hl.2, fun _ _ => by omega⟩
    | writebackDone pos n =>
      intro he
      have hl := (h he).1
      omega
    | _ => trivial

theorem Sized.exec (h : Sized c.q) (he : c.q.enabled = true) (hx : exec S env c cmd = .ok c') : Sized c'.q := by
  obtain ⟨h1, h2⟩ := h he
  have hsame : ∀ {q : QueueBase}, q.len = c.q.len → q.activeFirstIdx = c.q.activeFirstIdx → Sized q := by
    intro q hl hi _
    omega
  rcases exec_ring he hx with ⟨-, hr, -⟩ | ⟨-, -, hr, -⟩ | ⟨-, -, hr, -⟩ | ⟨pos, n, -, hq, -⟩
  · exact hsame (congrArg Ring.len hr) (congrArg Ring.firstIdx hr)
  · exact hsame (congrArg Ring.len hr) (congrArg Ring.firstIdx hr)
  · exact hsame (congrArg Ring.len hr) (congrArg Ring.firstIdx hr)
  · rw [hq]
    exact fun _ => ⟨h1, (Nat.mod_lt _ h1).le⟩

end

/-- No function of a queue divides by zero or goes below zero, whenever it is called. -/
structure Defined (d : Device) : Prop where
  atq : ∀ cmd, Sensible AdminQueue.subclass d.atq cmd
  rxqs : ∀ i cmd, Sensible LanRx.subclass (d.rxqs i) cmd
  txqs : ∀ i cmd, Sensible LanTx.subclass (d.txqs i) cmd
  packets : ∀ i, (d.rxqs i).q.enabled = true → (d.rxqs i).client.dbuffSize ≠ 0

/-- An input that enables a queue, or changes its length while it is enabled, gives it a length that
is not zero and holds the window; a receive queue also gets buffers that are not empty. -/
def Fits (d : Device) : Input → Prop
  | .run => d.calls.head? = some .atq → ∀ i ctx, AddsTxq d.atq i ctx → (d.txqs i).q.enabled = false → 1 ≤ txLen ctx
  | .write addr val => ∀ ptp r, regMemWrite32 ptp (fun i => (d.rxqs i).q.enabled) d.regs addr val = .ok r →
      (.atqRegUpdated ∈ r.2 → atqEnabled r.1 = true → 1 ≤ atqLen r.1 ∧ d.atq.q.activeFirstIdx ≤ atqLen r.1) ∧
      ∀ i, .qenaUpdated i true ∈ r.2 → r.1.arr .qrxEna i % 2 = 1 → (d.rxqs i).q.enabled = false →
        1 ≤ rxLen (rxContext r.1 i) ∧ (d.rxqs i).q.activeFirstIdx ≤ rxLen (rxContext r.1 i) ∧
          rxDbuffSize (rxContext r.1 i) ≠ 0
  | .packet _ _ => True

def fittingDevice : Machine Device where
  start := Fresh
  step d d' := ∃ x, Step d x d' ∧ Fits d x

/-- With `qtx_ena` in step with the queues, a transmit queue is enabled by `add_txqs` alone. -/
structure Proportioned (d : Device) : Prop where
  atq : Sized d.atq.q
  rxqs : ∀ i, Sized (d.rxqs i).q ∧ ((d.rxqs i).q.enabled = true → (d.rxqs i).client.dbuffSize ≠ 0)
  txqs : ∀ i, Sized (d.txqs i).q ∧ ((d.txqs i).q.enabled = false → (d.txqs i).q.activeFirstIdx = 0)
  ena : ∀ i, d.atq.client.dev.qtxEna i % 2 = 1 → (d.txqs i).q.enabled = true

variable {d d' : Device}

theorem Proportioned.defined (h : Proportioned d) : Defined d :=
  ⟨sensible_iff.mpr h.atq, fun i => sensible_iff.mpr (h.rxqs i).1, fun i => sensible_iff.mpr (h.txqs i).1,
    fun i => (h.rxqs i).2⟩

theorem Proportioned.fresh (h : Fresh d) : Proportioned d := by
  have hsized : ∀ {q : QueueBase}, q.enabled = false → Sized q := by
    intro q hq he
    rw [hq] at he
    cases he
  refine ⟨hsized h.atq.disabled, fun i => ⟨hsized (h.rxqs i).disabled, fun he => ?_⟩,
    fun i => ⟨hsized (h.txqs i).disabled, fun _ => (h.txqs i).first_idx⟩, fun i hi => ?_⟩
  · rw [(h.rxqs i).disabled] at he
    cases he
  · rw [h.dev.2] at hi
    cases hi

theorem Proportioned.setRegs (h : Proportioned d) (regs : Regs) : Proportioned (d.setRegs regs) :=
  ⟨h.atq, h.rxqs, h.txqs, h.ena⟩

theorem Proportioned.setRx {i : ℕ} {c : Config RxClient RxPacket} (h : Proportioned d) (hs : Sized c.q)
    (hb : c.q.enabled = true → c.client.dbuffSize ≠ 0) : Proportioned (d.setRx i c) :=
  { h with
    rxqs := (Function.forall_update_iff _ fun _ (x : Config RxClient RxPacket) =>
      Sized x.q ∧ (x.q.enabled = true → x.client.dbuffSize ≠ 0)).mpr ⟨⟨hs, hb⟩, fun j _ => h.rxqs j⟩ }

theorem Proportioned.setTx {i : ℕ} {c : Config TxClient Unit} (h : Proportioned d) (hs : Sized c.q)
    (he : c.q.enabled = true) : Proportioned (d.setTx i c) := by
  refine { h with txqs := ?_, ena := ?_ }
  · refine (Function.forall_update_iff _ fun _ (x : Config TxClient Unit) =>
      Sized x.q ∧ (x.q.enabled = false → x.q.activeFirstIdx = 0)).mpr ⟨⟨hs, ?_⟩, fun j _ => h.txqs j⟩
    rw [he]
    rintro ⟨⟩
  · exact (Function.forall_update_iff _ fun j (x : Config TxClient Unit) =>
      d.atq.client.dev.qtxEna j % 2 = 1 → x.q.enabled = true).mpr ⟨fun _ => he, fun j _ => h.ena j⟩

theorem Proportioned.push (h : Proportioned d) (calls : List Call) : Proportioned (d.push calls) :=
  ⟨h.atq, h.rxqs, h.txqs, h.ena⟩

theorem Proportioned.rxTailUpdated (h : Proportioned d) (i : ℕ) : Proportioned (d.rxTailUpdated i) := by
  unfold Device.rxTailUpdated
  split
  · exact (h.setRx (c := Nic.regUpdated (d.rxqs i)) (h.rxqs i).1 (h.rxqs i).2).push [.rx i]
  · exact h

theorem Proportioned.txTailUpdated (h : Proportioned d) (i : ℕ) : Proportioned (d.txTailUpdated i) := by
  unfold Device.txTailUpdated
  split
  · rename_i he
    exact (h.setTx (c := Nic.regUpdated (d.txqs i)) (h.txqs i).1 he).push [.tx i]
  · exact h

theorem Proportioned.addTxq {c : AdminConfig} {i : ℕ} {ctx : List UInt8} (h : Proportioned d)
    (ht : Tidy (d.setAtq c)) (hc : Sized c.q)
    (hena : c.client.dev.qtxEna = Function.update d.atq.client.dev.qtxEna i qenaReq)
    (hctx : c.client.dev.ctxAddr = Function.update d.atq.client.dev.ctxAddr i ctx)
    (hl : (d.txqs i).q.enabled = false → 1 ≤ txLen ctx) : Proportioned ((d.setAtq c).txQenaUpdated i) := by
  have hreq : c.client.dev.qtxEna i % 2 = 1 := by
    rw [hena, Function.update_self]
    rfl
  have hother : ∀ j, j ≠ i → c.client.dev.qtxEna j % 2 = 1 → (d.txqs j).q.enabled = true := by
    intro j hj hodd
    rw [hena, Function.update_of_ne hj] at hodd
    exact h.ena j hodd
  rcases ht.txQenaUpdated_cases i with ⟨he | hz, hd⟩ | ⟨hn, -, hd⟩
  · rw [hd]
    refine ⟨hc, h.rxqs, h.txqs, fun j hodd => ?_⟩
    by_cases hj : j = i
    · rw [hj]
      exact he
    · exact hother j hj hodd
  · change c.client.dev.qtxEna i % 2 = 0 at hz
    omega
  · rw [hd]
    change (d.txqs i).q.enabled = false at hn
    have hlen : c.client.dev.ctxAddr i = ctx := by rw [hctx, Function.update_self]
    refine ⟨hc, h.rxqs, ?_, ?_⟩
    · refine (Function.forall_update_iff _ fun _ (x : Config TxClient Unit) =>
        Sized x.q ∧ (x.q.enabled = false → x.q.activeFirstIdx = 0)).mpr ⟨⟨fun _ => ?_, ?_⟩, fun j _ => h.txqs j⟩
      · change 1 ≤ txLen (c.client.dev.ctxAddr i) ∧ (d.txqs i).q.activeFirstIdx ≤ _
        rw [hlen, (h.txqs i).2 hn]
        exact ⟨hl hn, Nat.zero_le _⟩
      · rintro ⟨⟩
    · intro j hodd
      change Function.update c.client.dev.qtxEna i _ j % 2 = 1 at hodd
      change (Function.update d.txqs i _ j).q.enabled = true
      by_cases hj : j = i
      · subst hj
        rw [Function.update_self]
        rfl
      · rw [Function.update_of_ne hj] at hodd ⊢
        exact hother j hj hodd

theorem Proportioned.ran (h : Proportioned d) (ht : Tidy d) (hf : Fits d .run) (hr : Ran d d') : Proportioned d' := by
  cases hr with
  | done call rest hs hq hr ht hu => exact ⟨h.atq, h.rxqs, h.txqs, h.ena⟩
  | atq env cmd rest c hc hs he =>
    have hlive := ht.atq.live (by rw [hs]; simp)
    have hsized : Sized c.q := Sized.exec (c := { d.atq with stack := rest }) h.atq hlive he
    rcases exec_txqs hlive hs he with ⟨-, hn, hena, -⟩ | ⟨i, ctx, ha, -, hn, hena, hctx⟩
    · rw [hn]
      refine ⟨hsized, h.rxqs, h.txqs, fun i hi => ?_⟩
      change c.client.dev.qtxEna i % 2 = 1 at hi
      rw [hena] at hi
      exact h.ena i hi
    · rw [hn]
      exact h.addTxq (ht.execAtq hc hs he) hsized hena hctx (hf hc i ctx ha)
  | rx i env cmd rest c hc hs he =>
    have hlive := (ht.rxqs i).live (by rw [hs]; simp)
    refine h.setRx (Sized.exec (c := { d.rxqs i with stack := rest }) (h.rxqs i).1 hlive he) fun _ => ?_
    rw [RxDelivery.exec_client (c := { d.rxqs i with stack := rest }) hlive he]
    exact (h.rxqs i).2 hlive
  | tx i env cmd rest c hc hs he =>
    have hlive := (ht.txqs i).live (by rw [hs]; simp)
    exact h.setTx (Sized.exec (c := { d.txqs i with stack := rest }) (h.txqs i).1 hlive he)
      (exec_registers (c := { d.txqs i with stack := rest }) hlive he).1
  | tailUpdated idx rest hs =>
    have hd : Proportioned { d with calls := rest } := ⟨h.atq, h.rxqs, h.txqs, h.ena⟩
    exact hd.rxTailUpdated idx

theorem sized_of_disabled {q : QueueBase} (h : q.enabled = false) : Sized q := by
  intro he
  rw [h] at he
  cases he

theorem rxEnable_sizes {ctx : List UInt8} {c c' : Config RxClient RxPacket} (h : rxEnable ctx c = .ok c') :
    c'.q.enabled = true ∧ c'.q.len = rxLen ctx ∧ c'.q.activeFirstIdx = c.q.activeFirstIdx ∧
      c'.client.dbuffSize = rxDbuffSize ctx := by
  rw [rxEnable_ok h]
  exact ⟨rfl, rfl, rfl, rfl⟩

theorem Proportioned.rxQenaUpdated {i : ℕ} (h : Proportioned d) (hd : d.rxQenaUpdated i = .ok d')
    (hf : d.regs.arr .qrxEna i % 2 = 1 → (d.rxqs i).q.enabled = false →
      1 ≤ rxLen (rxContext d.regs i) ∧ (d.rxqs i).q.activeFirstIdx ≤ rxLen (rxContext d.regs i) ∧
        rxDbuffSize (rxContext d.regs i) ≠ 0) : Proportioned d' := by
  have hstore : ∀ val, Proportioned { d with regs := d.regs.store .qrxEna i val } :=
    fun _ => ⟨h.atq, h.rxqs, h.txqs, h.ena⟩
  rcases rxQenaUpdated_cases hd with ⟨hodd, hn, c, val, hc, rfl⟩ | ⟨-, -, val, rfl⟩ | ⟨-, rfl⟩
  · obtain ⟨h1, h2, h3⟩ := hf hodd hn
    obtain ⟨-, hl, hi, hb⟩ := rxEnable_sizes hc
    refine ((hstore val).setRx (fun _ => ?_) fun _ => ?_).push _
    · rw [hl, hi]
      exact ⟨h1, h2⟩
    · rwa [hb]
  · refine (hstore val).setRx (sized_of_disabled rfl) ?_
    rintro ⟨⟩
  · exact h

theorem proportioned_reset (d : Device) : Proportioned d.reset := by
  refine ⟨sized_of_disabled rfl, fun i => ⟨sized_of_disabled rfl, ?_⟩, fun i => ⟨sized_of_disabled rfl, fun _ => rfl⟩, ?_⟩
  · rintro ⟨⟩
  · rintro i ⟨⟩

theorem Proportioned.txQenaUpdated (h : Proportioned d) (ht : Tidy d) (i : ℕ) : Proportioned (d.txQenaUpdated i) := by
  rcases ht.txQenaUpdated_cases i with ⟨-, hd⟩ | ⟨hn, hodd, -⟩
  · rw [hd]
    exact h
  · rw [h.ena i hodd] at hn
    cases hn

theorem Proportioned.regWrite {env : DeviceEnv} {addr val : ℕ} (h : Proportioned d) (ht : Tidy d)
    (hf : Fits d (.write addr val)) (hw : d.regWrite env addr val = .ok d') : Proportioned d' := by
  obtain ⟨r, hr, ⟨-, rfl⟩ | ⟨n, hn, hd⟩⟩ := regWrite_cases hw
  · exact h.setRegs r.1
  obtain ⟨hatq, hrx⟩ := hf _ r hr
  rw [hn] at hatq hrx
  have hs := h.setRegs r.1
  cases n with
  | tailUpdated i rx =>
    cases rx
    · exact Except.ok.inj hd ▸ hs.txTailUpdated i
    · exact Except.ok.inj hd ▸ hs.rxTailUpdated i
  | qenaUpdated i rx =>
    cases rx
    · exact Except.ok.inj hd ▸ hs.txQenaUpdated (ht.setRegs r.1) i
    · exact hs.rxQenaUpdated hd (hrx i (by simp))
  | atqRegUpdated =>
    have hp : Proportioned { d.setRegs r.1 with atq := Nic.atqRegUpdated r.1 (d.setRegs r.1).atq } :=
      ⟨hatq (by simp), hs.rxqs, hs.txqs, hs.ena⟩
    exact Except.ok.inj hd ▸ hp.push [.atq]
  | reset => exact Except.ok.inj hd ▸ proportioned_reset _
  | _ =>
    rw [notify_silent rfl] at hd
    exact Except.ok.inj hd ▸ hs

theorem Proportioned.packetReceived {env : DeviceEnv} {hint : Option ℕ} {data : List UInt8} (h : Proportioned d)
    (hp : d.packetReceived env hint data = .ok d') : Proportioned d' := by
  unfold Device.packetReceived at hp
  dsimp only at hp
  split at hp
  · cases hp
  split at hp
  · cases hp
    exact h
  · obtain ⟨c, hc, hp⟩ := bind_ok hp
    cases hp
    obtain ⟨k, rfl⟩ := receive_ok hc
    refine Proportioned.push (h.setRx ?_ ?_) _
    · exact (h.rxqs _).1
    · exact (h.rxqs _).2

theorem Proportioned.step {x : Input} (h : Proportioned d) (ht : Tidy d) (hf : Fits d x) (hs : Step d x d') :
    Proportioned d' := by
  cases hs with
  | run env call rest hs hr => exact h.ran ht hf (ran_of_run hs hr)
  | write env addr val hv hs hw => exact h.regWrite ht hf hw
  | packet env hint data hs hp => exact h.packetReceived hp

theorem fittingDevice_device (h : fittingDevice.Reachable d) : device.Reachable d := by
  induction h with
  | start h => exact .start h
  | step _ h ih =>
    obtain ⟨x, hx, -⟩ := h
    exact .step ih ⟨x, hx⟩

theorem Proportioned.reachable (h : fittingDevice.Reachable d) : Proportioned d := by
  induction h with
  | start h => exact .fresh h
  | step hr h ih =>
    obtain ⟨x, hx, hf⟩ := h
    exact ih.step (.reachable (fittingDevice_device hr)) hf hx

theorem Defined.fits_run (h : Defined d') (ht : Tidy d) (hr : Ran d d') : Fits d .run := by
  intro hhead i ctx ha hn
  have hne : d.atq.stack ≠ [] := by
    obtain ⟨a, b, rest, hs, -⟩ := ha
    rw [hs]
    simp
  cases hr with
  | done call rest hs hq hr ht hu =>
    rw [hs] at hhead
    cases hhead
    exact absurd (hq rfl) hne
  | atq env cmd rest c hc hs he =>
    rcases exec_txqs (ht.atq.live hne) hs he with ⟨hno, -⟩ | ⟨j, ctx', ha', -, hn', hena, hctx⟩
    · exact absurd ha (hno i ctx)
    obtain ⟨rfl, rfl⟩ := addsTxq_unique ha ha'
    rw [hn'] at h
    have hlen : c.client.dev.ctxAddr i = ctx := by rw [hctx, Function.update_self]
    rcases (ht.execAtq hc hs he).txQenaUpdated_cases i with ⟨he' | hz, -⟩ | ⟨-, -, hd⟩
    · change (d.txqs i).q.enabled = true at he'
      rw [he'] at hn
      cases hn
    · change c.client.dev.qtxEna i % 2 = 0 at hz
      rw [hena, Function.update_self] at hz
      cases hz
    · have hs' := h.txqs i .triggerFetch
      rw [List.foldl_cons, List.foldl_nil, hd] at hs'
      change (Function.update d.txqs i _ i).q.enabled = true → (Function.update d.txqs i _ i).q.len ≠ 0 ∧ _ at hs'
      rw [Function.update_self] at hs'
      have hl := (hs' rfl).1
      change txLen (c.client.dev.ctxAddr i) ≠ 0 at hl
      rw [hlen] at hl
      omega
  | rx i env cmd rest c hc hs he =>
    rw [hc] at hhead
    cases hhead
  | tx i env cmd rest c hc hs he =>
    rw [hc] at hhead
    cases hhead
  | tailUpdated idx rest hs =>
    rw [hs] at hhead
    cases hhead

theorem regMemWrite32_ptp {ptp : PtpClock} {en : ℕ → Bool} {regs : Regs} {addr val : ℕ} {r : Regs × List Notify}
    (h : regMemWrite32 ptp en regs addr val = .ok r) (hn : r.2 ≠ []) (ptp' : PtpClock) :
    regMemWrite32 ptp' en regs addr val = .ok r := by
  by_cases hsb : addr = pfSbAtqbal
  · exfalso
    subst hsb
    have h1 : AddressMap.lookup (writeRanges ++ writeCases) pfSbAtqbal = none := by decide
    have h2 : writeSwitch.lookup pfSbAtqbal = none := by decide
    unfold regMemWrite32 at h
    rw [h1, h2] at h
    split at h
    · cases h
      exact hn rfl
    · cases h
  · rw [← h]
    unfold regMemWrite32
    simp only [if_neg hsb]

theorem Defined.fits_write {env : DeviceEnv} {addr val : ℕ} (h : Defined d')
    (hw : d.regWrite env addr val = .ok d') : Fits d (.write addr val) := by
  intro ptp r hr
  obtain ⟨r', hr', hcases⟩ := regWrite_cases hw
  -- a register write that concerns a queue has the same outcome at any time
  have hsame : ∀ n ∈ r.2, Notify.isQueue n = true → (d.setRegs r.1).notify n = .ok d' := by
    intro n hn hq
    have hne : r.2 ≠ [] := by
      intro hnil
      rw [hnil] at hn
      cases hn
    have heq := regMemWrite32_ptp hr hne env.ptp
    rw [hr'] at heq
    cases heq
    rcases hcases with ⟨hsil, -⟩ | ⟨m, hm, hd⟩
    · rw [hsil n hn] at hq
      cases hq
    · rw [hm, List.mem_singleton] at hn
      rwa [hn]
  constructor
  · intro hn he
    have hd := Except.ok.inj (hsame _ hn rfl)
    have hs := sensible_iff.mp h.atq
    rw [← hd] at hs
    exact hs he
  · intro i hn hodd hdis
    rcases rxQenaUpdated_cases (hsame _ hn rfl) with ⟨-, -, c, v, hc, hd⟩ | ⟨hz, -⟩ | ⟨hiff, -⟩
    · obtain ⟨he, hl, hi, hb⟩ := rxEnable_sizes hc
      have hq : d'.rxqs i = c := by
        rw [hd]
        exact Function.update_self _ _ _
      have hs := sensible_iff.mp (h.rxqs i)
      have hp := h.packets i
      rw [hq] at hs hp
      have hs := hs he
      rw [hl, hi] at hs
      exact ⟨hs.1, hs.2, hb ▸ hp he⟩
    · change r.1.arr .qrxEna i % 2 = 0 at hz
      omega
    · change r.1.arr .qrxEna i % 2 = 1 ↔ (d.rxqs i).q.enabled = true at hiff
      rw [hiff.mp hodd] at hdis
      cases hdis

/-- In a run whose inputs all fit nothing is undefined, and exactly these inputs keep it so. -/
theorem queue_arithmetic_defined (d : Device) (h : fittingDevice.Reachable d) :
    Defined d ∧ ∀ x d', Step d x d' → (Defined d' ↔ Fits d x) := by
  have hp := Proportioned.reachable h
  have ht := Tidy.reachable (fittingDevice_device h)
  refine ⟨hp.defined, fun x d' hs => ⟨fun hd => ?_, fun hf => (hp.step ht hf hs).defined⟩⟩
  cases hs with
  | run env call rest hs hr => exact hd.fits_run ht (ran_of_run hs hr)
  | write env addr val hv hs hw => exact hd.fits_write hw
  | packet env hint data hs hpk => trivial

def anyEnv : DeviceEnv :=
  ⟨fun _ => 0, fun _ _ => true, ⟨0, fun _ => 0⟩, ⟨fun _ => 0, 0, fun _ => 0⟩, ⟨fun _ => true⟩, ⟨0, 0, 0, fun _ => 0⟩⟩

def atqlenAddr : ℕ := 0x080200

theorem regMemWrite32_atqlen (ptp : PtpClock) (en : ℕ → Bool) (regs : Regs) (val : ℕ) :
    regMemWrite32 ptp en regs atqlenAddr val = .ok (regs.set .pfAtqlen val, [.atqRegUpdated]) := by
  have h1 : AddressMap.lookup (writeRanges ++ writeCases) atqlenAddr = none := by decide
  have h3 : atqlenAddr ≠ gltsynCmdSync := by decide
  exact regMemWrite32_switch ptp en regs val h1 rfl h3 rfl

def withAtqlen (val : ℕ) : Device :=
  let d := zeroed.setRegs (zeroed.regs.set .pfAtqlen val)
  Device.push { d with atq := Nic.atqRegUpdated d.regs d.atq } [.atq]

theorem step_withAtqlen {val : ℕ} (hv : val < 0x100000000) :
    Step zeroed (.write atqlenAddr val) (withAtqlen val) := by
  refine .write anyEnv atqlenAddr val hv rfl ?_
  unfold Device.regWrite
  rw [regMemWrite32_atqlen]
  rfl

theorem queue_arithmetic_defined_four :
    ∃ d, fittingDevice.Reachable d ∧ d.atq.q.enabled = true ∧ d.atq.q.len = 4 ∧ Defined d := by
  have hf : Fits zeroed (.write atqlenAddr 0x80000004) := by
    intro ptp r hr
    rw [regMemWrite32_atqlen] at hr
    cases hr
    refine ⟨fun _ _ => ⟨by decide, by decide⟩, ?_⟩
    intro i hi
    simp at hi
  have hr : fittingDevice.Reachable (withAtqlen 0x80000004) :=
    .step (.start zeroed_fresh) ⟨_, step_withAtqlen (by norm_num), hf⟩
  exact ⟨_, hr, rfl, rfl, (queue_arithmetic_defined _ hr).1⟩

/-- `PF_FW_ATQLEN` with the enable bit and length 0: `trigger_fetch` divides by `len`. -/
theorem division_by_zero_atqlen :
    ∃ d, device.Reachable d ∧ Faults AdminQueue.subclass d.atq .divisionByZero ∧ ¬Defined d := by
  have hr : device.Reachable (withAtqlen 0x80000000) :=
    .step (.start zeroed_fresh) ⟨_, step_withAtqlen (by norm_num)⟩
  refine ⟨_, hr, ⟨anyEnv.env anyEnv.admin, .triggerFetch, _, rfl, rfl⟩, fun h => ?_⟩
  exact (h.atq .triggerFetch rfl).1 rfl

end Vmux.QueueArithmetic
