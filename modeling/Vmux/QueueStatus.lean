import Vmux.QueueReenable
import Vmux.StorageRegisters

namespace Vmux.QueueStatus

open Transitions AddressMap DescriptorQueue LanRx Registers RegisterBounds StorageRegisters Nic QueueReenable

def qrxCtrl (q : ℕ) : ℕ := 0x120000 + 4 * q

/-- The queue whose `QRX_CTRL` a write reaches. -/
def ctrlQueue (addr : ℕ) : Option ℕ :=
  if 0x120000 ≤ addr ∧ addr ≤ 0x121FFC then some ((addr - 0x120000) / 4) else none

/-- A device and the value last written to each `QRX_CTRL` since the last reset. -/
structure State where
  dev : Device
  last : ℕ → Option ℕ

def written (addr val : ℕ) (last : ℕ → Option ℕ) : ℕ → Option ℕ :=
  if addr = pfgenCtrl ∧ val % 2 = 1 then fun _ => none
  else match ctrlQueue addr with
    | some q => Function.update last q (some val)
    | none => last

def remember : Input → (ℕ → Option ℕ) → ℕ → Option ℕ
  | .write addr val, last => written addr val last
  | _, last => last

/-- All that the device does, with the writes to `QRX_CTRL` that `ok` allows. -/
def history (ok : ℕ → Prop) : Machine State where
  start s := Fresh s.dev ∧ s.last = fun _ => none
  step s t := ∃ x, Step s.dev x t.dev ∧ (∀ addr val, x = .write addr val → (ctrlQueue addr).isSome → ok val) ∧
    t.last = remember x s.last

/-- Exactly one of `QENA_REQ` and `QENA_STAT` is set. -/
def OneSet (val : ℕ) : Prop := val % 2 ≠ val / 4 % 2

instance : DecidablePred OneSet := fun _ => inferInstanceAs (Decidable (_ ≠ _))

structure Truthful (s : State) (q : ℕ) : Prop where
  read : ∀ ptp, ∃ v, regMemRead32 ptp s.dev.regs (qrxCtrl q) = .ok (v, s.dev.regs) ∧
    (v / 4 % 2 = 1 ↔ (s.dev.rxqs q).q.enabled = true) ∧ v % 2 = (s.last q).getD 0 % 2

structure Inv (s : State) : Prop where
  tidy : Tidy s.dev
  ctrl : ∀ q, s.dev.regs.arr .qrxCtrl q = (s.last q).elim 0 fun val => (val + 4) % 0x100000000
  enabled : ∀ q, (s.dev.rxqs q).q.enabled = true ↔ (s.last q).getD 0 % 2 = 1

variable {ptp : PtpClock} {en : ℕ → Bool} {regs regs' : Regs} {addr val q : ℕ} {notes : List Notify} {d d' : Device}

theorem qrxCtrl_reads : Decodes 0x120000 0x121FFC 4 (.load .qrxCtrl) (readRanges ++ readCases) := by decide +kernel

theorem qrxCtrl_writes : Decodes 0x120000 0x121FFC 4 .rxCtrl (writeRanges ++ writeCases) := by decide +kernel

theorem qrxCtrl_touched : ∀ r ∈ writeRanges ++ writeCases, .qrxCtrl ∈ touched r.target ∨ r.target = .rxCtrl →
    r.lo = 0x120000 ∧ r.hi = 0x121FFC := by decide +kernel

theorem read_qrxCtrl (ptp : PtpClock) (regs : Regs) (hq : q < Registers.numQueues) :
    regMemRead32 ptp regs (qrxCtrl q) = .ok (regs.arr .qrxCtrl q, regs) := by
  have hq' : q < 1536 := hq
  have hlo : 0x120000 ≤ qrxCtrl q := Nat.le_add_right _ _
  have hhi : qrxCtrl q ≤ 0x121FFC := by
    unfold qrxCtrl
    omega
  obtain ⟨r, hl, ht, hidx⟩ := qrxCtrl_reads.lookup_eq hlo hhi
  have hindex : (qrxCtrl q - 0x120000) / 4 = q := by
    unfold qrxCtrl
    omega
  rw [hindex] at hidx
  have hin : ∀ a ∈ readAccesses (qrxCtrl q), a.InBounds := by
    unfold readAccesses
    rw [hl]
    dsimp only
    rw [ht, hidx]
    intro a ha
    rw [List.mem_singleton.mp ha]
    change q < 2048
    omega
  unfold regMemRead32
  rw [if_pos hin, hl]
  dsimp only
  rw [ht, hidx]
  rfl

/-- A write to `QRX_CTRL` sets bit 2 by an addition. -/
theorem write_ctrl (h : regMemWrite32 ptp en regs addr val = .ok (regs', notes)) (hc : ctrlQueue addr = some q) :
    regs' = (regs.store .qrxCtrl q ((val + 4) % 0x100000000)).store .qrxEna q val ∧ notes = [.qenaUpdated q true] := by
  unfold ctrlQueue at hc
  split at hc
  · rename_i hin
    obtain ⟨r, hl, ht, hidx⟩ := qrxCtrl_writes.lookup_eq hin.1 hin.2
    rw [Option.some.inj hc] at hidx
    unfold regMemWrite32 at h
    split at h
    · rw [hl] at h
      dsimp only at h
      rw [ht, hidx] at h
      cases h
      exact ⟨rfl, rfl⟩
    · cases h
  · cases hc

theorem not_ctrl {r : Range WriteAction} (hl : lookup (writeRanges ++ writeCases) addr = some r)
    (hc : ctrlQueue addr = none) : .qrxCtrl ∉ touched r.target ∧ r.target ≠ .rxCtrl := by
  obtain ⟨hmem, hlo, hhi⟩ := lookup_some hl
  have hout : ¬(0x120000 ≤ addr ∧ addr ≤ 0x121FFC) := by
    intro hin
    rw [ctrlQueue, if_pos hin] at hc
    cases hc
  rw [← not_or]
  intro ht
  obtain ⟨h1, h2⟩ := qrxCtrl_touched r hmem ht
  exact hout (by omega)

theorem write_other (h : regMemWrite32 ptp en regs addr val = .ok (regs', notes)) (hc : ctrlQueue addr = none) :
    regs'.arr .qrxCtrl = regs.arr .qrxCtrl ∧ ∀ q, .qenaUpdated q true ∉ notes := by
  unfold regMemWrite32 at h
  split at h
  · have hregs := congrArg Prod.fst (Except.ok.inj h)
    have hnotes := congrArg Prod.snd (Except.ok.inj h)
    dsimp only at hregs hnotes
    rw [← hregs, ← hnotes]
    split
    · rename_i r hl
      obtain ⟨h1, h2⟩ := not_ctrl hl hc
      refine ⟨funext fun q => run_arr _ _ _ _ fun ht => absurd ht h1, fun q => ?_⟩
      cases ht : r.target with
      | rxCtrl => exact absurd ht h2
      | _ => simp [WriteAction.run]
    split
    · rename_i st calls he
      have hall : ∀ e ∈ writeSwitch, ∀ n ∈ e.2.2, n = .createCqp ∨ n = .atqRegUpdated := by decide +kernel
      refine ⟨by rw [apply_arr], fun q hn => ?_⟩
      rcases hall _ (mem_of_lookup he) _ hn with h | h
      · cases h
      · cases h
    split
    · refine ⟨rfl, fun q => ?_⟩
      split
      · simp
      · simp
    split
    · refine ⟨rfl, fun q => ?_⟩
      split
      · simp
      · simp
    split
    · exact ⟨by rw [(sbAtqbal_eq ptp regs val).1], by simp⟩
    split
    · refine ⟨funext fun q => (cmdSync_eq regs val).2 _ _ (by decide), fun q => ?_⟩
      unfold cmdSync
      split
      · simp
      split
      · simp
      · simp
    split
    · exact ⟨funext fun q => store_arr_ne _ _ _ _ (.inl (by decide)), by simp⟩
    · exact ⟨rfl, by simp⟩
  · cases h

theorem pfgenCtrl_lookup : lookup (writeRanges ++ writeCases) pfgenCtrl = none ∧ writeSwitch.lookup pfgenCtrl = none ∧
    ctrlQueue pfgenCtrl = none := by
  decide +kernel

theorem write_reset (h : regMemWrite32 ptp en regs pfgenCtrl val = .ok (regs', notes)) (hv : val % 2 = 1) :
    notes = [.reset] := by
  obtain ⟨h1, h2, -⟩ := pfgenCtrl_lookup
  unfold regMemWrite32 at h
  split at h
  · rw [h1, h2] at h
    dsimp only at h
    rw [if_pos rfl] at h
    cases h
    rfl
  · cases h

theorem rxQenaUpdated_status (h : d.rxQenaUpdated q = .ok d') : d'.regs.arr .qrxCtrl = d.regs.arr .qrxCtrl ∧
    ∀ i, (d'.rxqs i).q.enabled = true ↔ if i = q then d.regs.arr .qrxEna q % 2 = 1 else (d.rxqs i).q.enabled = true := by
  have hstore : ∀ val, (d.regs.store .qrxEna q val).arr .qrxCtrl = d.regs.arr .qrxCtrl :=
    fun val => funext fun i => store_arr_ne _ _ _ _ (.inl (by decide))
  have hset : ∀ (regs : Regs) (c : Config RxClient RxPacket) (i : ℕ),
      (Device.setRx { d with regs } q c).rxqs i = if i = q then c else d.rxqs i := by
    intro regs c i
    by_cases hi : i = q
    · subst hi
      rw [if_pos rfl]
      exact Function.update_self _ _ _
    · rw [if_neg hi]
      exact Function.update_of_ne hi _ _
  rcases rxQenaUpdated_cases h with ⟨he, -, c, val, hc, rfl⟩ | ⟨he, -, val, rfl⟩ | ⟨he, rfl⟩
  · refine ⟨hstore val, fun i => ?_⟩
    change ((Device.setRx { d with regs := d.regs.store .qrxEna q val } q c).rxqs i).q.enabled = true ↔ _
    rw [hset]
    by_cases hi : i = q
    · rw [if_pos hi, if_pos hi, rxEnable_ok hc]
      simp [he, Nic.regUpdated]
    · rw [if_neg hi, if_neg hi]
  · refine ⟨hstore val, fun i => ?_⟩
    rw [hset]
    by_cases hi : i = q
    · rw [if_pos hi, if_pos hi]
      simp [he, disable]
    · rw [if_neg hi, if_neg hi]
  · refine ⟨rfl, fun i => ?_⟩
    by_cases hi : i = q
    · rw [if_pos hi, hi]
      exact he.symm
    · rw [if_neg hi]

theorem rxTailUpdated_enabled (d : Device) (q i : ℕ) :
    ((d.rxTailUpdated q).rxqs i).q.enabled = (d.rxqs i).q.enabled := by
  unfold Device.rxTailUpdated
  split
  · change (Function.update d.rxqs q (Nic.regUpdated (d.rxqs q)) i).q.enabled = _
    by_cases hi : i = q
    · subst hi
      rw [Function.update_self]
      rfl
    · rw [Function.update_of_ne hi]
  · rfl

theorem txQenaUpdated_rxqs (d : Device) (i : ℕ) : (d.txQenaUpdated i).rxqs = d.rxqs := by
  unfold Device.txQenaUpdated
  dsimp only
  split
  · rfl
  split
  · rfl
  · rfl

theorem foldl_txQenaUpdated_rxqs (l : List ℕ) (d : Device) : (l.foldl Device.txQenaUpdated d).rxqs = d.rxqs := by
  induction l generalizing d with
  | nil => rfl
  | cons i l ih => exact (ih _).trans (txQenaUpdated_rxqs d i)

theorem notify_status {n : Notify} (h : d.notify n = .ok d') (hq : ∀ q, n ≠ .qenaUpdated q true) (hr : n ≠ .reset) :
    d'.regs = d.regs ∧ ∀ i, (d'.rxqs i).q.enabled = (d.rxqs i).q.enabled := by
  cases n with
  | tailUpdated i rx =>
    cases rx
    · cases h
      unfold Device.txTailUpdated
      split
      · exact ⟨rfl, fun _ => rfl⟩
      · exact ⟨rfl, fun _ => rfl⟩
    · cases h
      exact ⟨rxTailUpdated_regs d i, rxTailUpdated_enabled d i⟩
  | qenaUpdated i rx =>
    cases rx
    · cases h
      exact ⟨(txQenaUpdated_same d i).1, fun j => by rw [txQenaUpdated_rxqs]⟩
    · exact absurd rfl (hq i)
  | reset => exact absurd rfl hr
  | _ =>
    cases h
    exact ⟨rfl, fun _ => rfl⟩

theorem ran_status (ht : Tidy d) (h : Ran d d') : d'.regs.arr .qrxCtrl = d.regs.arr .qrxCtrl ∧
    ∀ i, (d'.rxqs i).q.enabled = (d.rxqs i).q.enabled := by
  cases h with
  | done call rest hs hq hr ht hu => exact ⟨rfl, fun _ => rfl⟩
  | atq env cmd rest c hc hs he =>
    obtain ⟨h1, -⟩ := foldl_txQenaUpdated (enabledTxqs (c.log.drop d.atq.log.length)) (d.setAtq c)
    rw [h1]
    exact ⟨rfl, fun i => by rw [foldl_txQenaUpdated_rxqs]; rfl⟩
  | rx i env cmd rest c hc hs he =>
    have hlive : (d.rxqs i).q.enabled = true := (ht.rxqs i).live (by rw [hs]; nofun)
    have hen := (exec_registers (c := { d.rxqs i with stack := rest }) hlive he).1
    refine ⟨rfl, fun j => ?_⟩
    by_cases hj : j = i
    · subst hj
      change (Function.update d.rxqs j c j).q.enabled = _
      rw [Function.update_self, hen, hlive]
    · change (Function.update d.rxqs i c j).q.enabled = _
      rw [Function.update_of_ne hj]
  | tx i env cmd rest c hc hs he => exact ⟨rfl, fun _ => rfl⟩
  | tailUpdated idx rest hs =>
    rw [rxTailUpdated_regs]
    exact ⟨rfl, rxTailUpdated_enabled { d with calls := rest } idx⟩

variable {s t : State} {ok : ℕ → Prop}

theorem Inv.start (h : (history ok).start s) : Inv s := by
  obtain ⟨hf, hl⟩ := h
  refine ⟨.fresh hf, fun q => ?_, fun q => ?_⟩
  · rw [hl, hf.regs]
    rfl
  · rw [hl, (hf.rxqs q).disabled]
    simp

theorem Inv.write {env : DeviceEnv} {last : ℕ → Option ℕ} (h : Inv ⟨d, last⟩) (ht : Tidy d')
    (hw : d.regWrite env addr val = .ok d') : Inv ⟨d', written addr val last⟩ := by
  obtain ⟨⟨regs', notes⟩, hr, hcase⟩ := regWrite_cases hw
  cases hc : ctrlQueue addr with
  | some q =>
    obtain ⟨rfl, rfl⟩ := write_ctrl hr hc
    have hnot : ¬(addr = pfgenCtrl ∧ val % 2 = 1) := by
      rintro ⟨rfl, -⟩
      rw [pfgenCtrl_lookup.2.2] at hc
      cases hc
    have hd : (d.setRegs ((d.regs.store .qrxCtrl q ((val + 4) % 0x100000000)).store .qrxEna q val)).rxQenaUpdated q =
        .ok d' := by
      rcases hcase with ⟨hq, -⟩ | ⟨n, hn, hd⟩
      · cases hq _ (List.mem_singleton.mpr rfl)
      · cases hn
        exact hd
    obtain ⟨hctrl, hen⟩ := rxQenaUpdated_status hd
    rw [written, if_neg hnot, hc]
    refine ⟨ht, fun i => ?_, fun i => ?_⟩
    · dsimp only
      rw [hctrl]
      change ((d.regs.store .qrxCtrl q _).store .qrxEna q val).arr .qrxCtrl i = _
      rw [store_arr_ne _ _ _ _ (.inl (by decide))]
      by_cases hi : i = q
      · subst hi
        rw [store_arr_self, Function.update_self]
        rfl
      · rw [store_arr_ne _ _ _ _ (.inr hi), Function.update_of_ne hi]
        exact h.ctrl i
    · refine (hen i).trans ?_
      dsimp only
      by_cases hi : i = q
      · subst hi
        rw [if_pos rfl, Function.update_self]
        change ((d.regs.store .qrxCtrl i _).store .qrxEna i val).arr .qrxEna i % 2 = 1 ↔ _
        rw [store_arr_self]
        rfl
      · rw [if_neg hi, Function.update_of_ne hi]
        exact h.enabled i
  | none =>
    obtain ⟨hctrl, hquiet⟩ := write_other hr hc
    by_cases hreset : addr = pfgenCtrl ∧ val % 2 = 1
    · obtain ⟨rfl, hv⟩ := hreset
      obtain rfl := write_reset hr hv
      have hd : d' = (d.setRegs regs').reset := by
        rcases hcase with ⟨hq, -⟩ | ⟨n, hn, hd⟩
        · cases hq _ (List.mem_singleton.mpr rfl)
        · cases hn
          exact (Except.ok.inj hd).symm
      rw [written, if_pos ⟨rfl, hv⟩]
      subst hd
      exact ⟨ht, fun _ => rfl, fun _ => by simp [Device.reset, Device.setRegs, QueueBase.reset]⟩
    · rw [written, if_neg hreset, hc]
      have hsame : d'.regs = regs' ∧ ∀ i, (d'.rxqs i).q.enabled = (d.rxqs i).q.enabled := by
        rcases hcase with ⟨-, rfl⟩ | ⟨n, hn, hd⟩
        · exact ⟨rfl, fun _ => rfl⟩
        · dsimp only at hn
          apply notify_status hd
          · rintro q rfl
            exact hquiet q (by rw [hn]; exact List.mem_singleton.mpr rfl)
          · rintro rfl
            exact hreset (reset_written hr (by rw [hn]; exact List.mem_singleton.mpr rfl))
      refine ⟨ht, fun i => ?_, fun i => ?_⟩
      · dsimp only
        rw [hsame.1, hctrl]
        exact h.ctrl i
      · dsimp only
        rw [hsame.2]
        exact h.enabled i

theorem Inv.same (h : Inv s) (ht : Tidy t.dev) (hl : t.last = s.last)
    (hctrl : t.dev.regs.arr .qrxCtrl = s.dev.regs.arr .qrxCtrl)
    (hen : ∀ i, (t.dev.rxqs i).q.enabled = (s.dev.rxqs i).q.enabled) : Inv t := by
  refine ⟨ht, fun q => ?_, fun q => ?_⟩
  · rw [hctrl, hl]
    exact h.ctrl q
  · rw [hen, hl]
    exact h.enabled q

theorem Inv.step (h : Inv s) (hs : (history ok).step s t) : Inv t := by
  obtain ⟨x, hx, -, hl⟩ := hs
  have ht := h.tidy.step hx
  cases hx with
  | run env call rest hc hr =>
    obtain ⟨hctrl, hen⟩ := ran_status h.tidy (ran_of_run hc hr)
    exact h.same ht hl hctrl hen
  | write env addr val hv hc hw =>
    have hi := Inv.write h ht hw
    change t.last = written addr val s.last at hl
    rw [← hl] at hi
    exact hi
  | packet env hint data hc hp =>
    refine h.same ht hl (by rw [packetReceived_regs hp]) ?_
    rcases packetReceived_cases hp with he | ⟨j, c, hr, he⟩
    · intro i
      rw [he]
    · obtain ⟨k, -, hk⟩ := bind_ok hr
      cases hk
      intro i
      rw [he]
      by_cases hi : i = j
      · subst hi
        change (Function.update s.dev.rxqs i _ i).q.enabled = _
        rw [Function.update_self]
      · change (Function.update s.dev.rxqs j _ i).q.enabled = _
        rw [Function.update_of_ne hi]

theorem Inv.reachable (h : (history ok).Reachable s) : Inv s :=
  h.invariant (fun _ => Inv.start) fun _ _ => Inv.step

theorem Inv.truthful_iff (h : Inv s) (hq : q < Registers.numQueues) :
    Truthful s q ↔ ∀ val, s.last q = some val → OneSet val := by
  have hctrl := h.ctrl q
  have hen := h.enabled q
  constructor
  · intro ht val hl
    obtain ⟨v, hv, hstat, -⟩ := ht.read ⟨0, 0, 0, fun _ => 0⟩
    rw [read_qrxCtrl _ _ hq, hctrl, hl] at hv
    rw [hl] at hen
    obtain rfl := congrArg Prod.fst (Except.ok.inj hv)
    simp only [Option.elim_some, Option.getD_some] at hstat hen
    rw [hen] at hstat
    unfold OneSet
    omega
  · intro hset
    refine ⟨fun ptp => ⟨_, read_qrxCtrl ptp _ hq, ?_, ?_⟩⟩
    · rw [hen, hctrl]
      cases hl : s.last q with
      | none => decide
      | some val =>
        have hone : val % 2 ≠ val / 4 % 2 := hset val hl
        simp only [Option.elim_some, Option.getD_some]
        omega
    · rw [hctrl]
      cases s.last q with
      | none => rfl
      | some val =>
        simp only [Option.elim_some, Option.getD_some]
        omega

theorem oneSet_reachable (h : (history OneSet).Reachable s) : ∀ q val, s.last q = some val → OneSet val := by
  induction h with
  | start h =>
    intro q val hv
    rw [h.2] at hv
    cases hv
  | step _ h ih =>
    intro q val hv
    obtain ⟨x, -, hok, hl⟩ := h
    rw [hl] at hv
    cases x with
    | write addr w =>
      by_cases hreset : addr = pfgenCtrl ∧ w % 2 = 1
      · rw [remember, written, if_pos hreset] at hv
        cases hv
      · rw [remember, written, if_neg hreset] at hv
        cases hc : ctrlQueue addr with
        | none =>
          rw [hc] at hv
          exact ih q val hv
        | some i =>
          rw [hc] at hv
          dsimp only at hv
          by_cases hi : q = i
          · subst hi
            rw [Function.update_self] at hv
            cases hv
            exact hok addr val rfl (by rw [hc]; rfl)
          · rw [Function.update_of_ne hi] at hv
            exact ih q val hv
    | run => exact ih q val hv
    | packet hint data => exact ih q val hv

theorem queue_status_truthful (q : ℕ) (hq : q < Registers.numQueues) :
    (∀ s, (history fun _ => True).Reachable s →
      (Truthful s q ↔ ∀ val, s.last q = some val → OneSet val)) ∧
    ∀ s, (history OneSet).Reachable s → Truthful s q := by
  constructor
  · intro s hs
    exact (Inv.reachable hs).truthful_iff hq
  · intro s hs
    exact ((Inv.reachable hs).truthful_iff hq).mpr (oneSet_reachable hs q)

theorem write_reachable {env : DeviceEnv} (h : (history ok).Reachable s) (hs : s.dev.calls = []) (hv : val < 0x100000000)
    (hok : (ctrlQueue addr).isSome → ok val) (hw : s.dev.regWrite env addr val = .ok d') :
    (history ok).Reachable ⟨d', written addr val s.last⟩ := by
  apply Machine.Reachable.step h
  refine ⟨.write addr val, .write env addr val hv hs hw, ?_, rfl⟩
  rintro a v ⟨⟩
  exact hok

/-- Queue 0 is given a context with long descriptors and is then enabled. -/
def enableRun : Except Fault (Device × Device) := do
  let d ← zeroed.regWrite DoorbellRouting.guestEnv 0x286000 0x100000
  let d' ← d.regWrite DoorbellRouting.guestEnv (qrxCtrl 0) 1
  .ok (d, d')

theorem enableRun_eq : enableRun.toOption.map (fun r => (r.1.calls, (r.2.rxqs 0).q.enabled)) = some ([], true) := by
  decide +kernel

theorem queue_status_enabled : ∃ s, (history OneSet).Reachable s ∧ s.last 0 = some 1 ∧
    (s.dev.rxqs 0).q.enabled = true ∧ Truthful s 0 := by
  have h := enableRun_eq
  cases hr : enableRun with
  | error f =>
    rw [hr] at h
    cases h
  | ok r =>
    rw [hr] at h
    simp only [Except.toOption, Option.map_some, Option.some.injEq, Prod.mk.injEq] at h
    obtain ⟨hcalls, hen⟩ := h
    obtain ⟨d, hd, hr⟩ := bind_ok hr
    obtain ⟨d', hd', hr⟩ := bind_ok hr
    cases hr
    have hfresh : (history OneSet).Reachable ⟨zeroed, fun _ => none⟩ := .start ⟨zeroed_fresh, rfl⟩
    have hctx := write_reachable hfresh rfl (by decide) (by decide) hd
    have hctrl := write_reachable hctx hcalls (by decide) (by decide) hd'
    exact ⟨_, hctrl, rfl, hen, (queue_status_truthful 0 (by decide)).2 _ hctrl⟩

theorem disableRun_eq : (zeroed.regWrite DoorbellRouting.guestEnv (qrxCtrl 0) 0).toOption.map (fun d =>
    ((d.rxqs 0).q.enabled, d.regs.arr .qrxCtrl 0)) = some (false, 4) := by
  decide +kernel

/-- A disabled queue is disabled again, and its status bit reads as set. -/
theorem queue_status_false : ∃ s, (history fun _ => True).Reachable s ∧ s.last 0 = some 0 ∧
    (s.dev.rxqs 0).q.enabled = false ∧ s.dev.regs.arr .qrxCtrl 0 = 4 ∧ ¬Truthful s 0 := by
  have h := disableRun_eq
  cases hr : zeroed.regWrite DoorbellRouting.guestEnv (qrxCtrl 0) 0 with
  | error f =>
    rw [hr] at h
    cases h
  | ok d =>
    rw [hr] at h
    simp only [Except.toOption, Option.map_some, Option.some.injEq, Prod.mk.injEq] at h
    obtain ⟨hen, hctrl⟩ := h
    have hfresh : (history fun _ => True).Reachable ⟨zeroed, fun _ => none⟩ := .start ⟨zeroed_fresh, rfl⟩
    have hw := write_reachable hfresh rfl (by decide) (fun _ => trivial) hr
    refine ⟨_, hw, rfl, hen, hctrl, ?_⟩
    rw [(Inv.reachable hw).truthful_iff (by decide)]
    exact fun hall => absurd (hall 0 rfl) (by decide)

end Vmux.QueueStatus
