import Vmux.CascadeTermination
import Vmux.NicSteps

namespace Vmux.DoorbellRouting

open Bytes Transitions DescriptorQueue AdminQueue LanRx LanTx Registers Nic

inductive Engine
  | atq
  | mbx
  | rx (i : ℕ)
  | tx (i : ℕ)
deriving DecidableEq, Repr

/-- A queue that is not listed is in every respect as it was. -/
structure ModifiesOnly (own : Engine → Prop) (d d' : Device) : Prop where
  atq : ¬own .atq → d'.atq = d.atq
  mbx : ¬own .mbx → d'.mbx = d.mbx
  rx : ∀ i, ¬own (.rx i) → d'.rxqs i = d.rxqs i
  tx : ∀ i, ¬own (.tx i) → d'.txqs i = d.txqs i

namespace ModifiesOnly

variable {own : Engine → Prop} {d d' d'' : Device}

theorem refl (own : Engine → Prop) (d : Device) : ModifiesOnly own d d :=
  ⟨fun _ => rfl, fun _ => rfl, fun _ _ => rfl, fun _ _ => rfl⟩

theorem mono (h : ModifiesOnly own d d') (own' : Engine → Prop) (hm : ∀ e, own e → own' e) : ModifiesOnly own' d d' :=
  ⟨fun hn => h.atq fun ho => hn (hm _ ho), fun hn => h.mbx fun ho => hn (hm _ ho),
    fun i hn => h.rx i fun ho => hn (hm _ ho), fun i hn => h.tx i fun ho => hn (hm _ ho)⟩

theorem trans (h : ModifiesOnly own d d') (h' : ModifiesOnly own d' d'') : ModifiesOnly own d d'' :=
  ⟨fun hn => (h'.atq hn).trans (h.atq hn), fun hn => (h'.mbx hn).trans (h.mbx hn),
    fun i hn => (h'.rx i hn).trans (h.rx i hn), fun i hn => (h'.tx i hn).trans (h.tx i hn)⟩

end ModifiesOnly

def callEngine : Call → Engine
  | .atq => .atq
  | .rx i | .tailUpdated i => .rx i
  | .tx i => .tx i

variable {d d' : Device}

theorem modifiesOnly_setRx (d : Device) (i : ℕ) (c : Config RxClient RxPacket) :
    ModifiesOnly (· = .rx i) d (d.setRx i c) := by
  refine ⟨fun _ => rfl, fun _ => rfl, fun j hj => ?_, fun _ _ => rfl⟩
  have hne : j ≠ i := fun h => hj (by rw [h])
  exact Function.update_of_ne hne _ _

theorem modifiesOnly_setTx (d : Device) (i : ℕ) (c : Config TxClient Unit) :
    ModifiesOnly (· = .tx i) d (d.setTx i c) := by
  refine ⟨fun _ => rfl, fun _ => rfl, fun _ _ => rfl, fun j hj => ?_⟩
  have hne : j ≠ i := fun h => hj (by rw [h])
  exact Function.update_of_ne hne _ _

theorem ModifiesOnly.push {own : Engine → Prop} (h : ModifiesOnly own d d') (calls : List Call) :
    ModifiesOnly own d (d'.push calls) :=
  ⟨h.atq, h.mbx, h.rx, h.tx⟩

theorem modifiesOnly_rxTailUpdated (d : Device) (i : ℕ) : ModifiesOnly (· = .rx i) d (d.rxTailUpdated i) := by
  unfold Device.rxTailUpdated
  split
  · exact (modifiesOnly_setRx d i _).push _
  · exact .refl _ d

theorem modifiesOnly_txTailUpdated (d : Device) (i : ℕ) : ModifiesOnly (· = .tx i) d (d.txTailUpdated i) := by
  unfold Device.txTailUpdated
  split
  · exact (modifiesOnly_setTx d i _).push _
  · exact .refl _ d

def added (since : ℕ) (d : Device) (e : Engine) : Prop := ∃ i ∈ enabledTxqs (d.atq.log.drop since), e = .tx i

/-- The queues of `base`, and with the admin queue those it has enabled. -/
def Owns (base : Engine → Prop) (since : ℕ) (d : Device) (e : Engine) : Prop :=
  base e ∨ base .atq ∧ added since d e

/-- Since the device was in the state `d`, no other queue was touched or is about to be. -/
structure Within (base : Engine → Prop) (d t : Device) : Prop where
  only : ModifiesOnly (Owns base d.atq.log.length t) d t
  calls : ∀ x ∈ t.calls, Owns base d.atq.log.length t (callEngine x)
  log : ∃ new, t.atq.log = d.atq.log ++ new

variable {base : Engine → Prop} {t t' : Device}

theorem Owns.mono {since : ℕ} {new : List Event} {e : Engine} (h : Owns base since t e)
    (hlog : t'.atq.log = t.atq.log ++ new) : Owns base since t' e := by
  rcases h with h | ⟨ha, i, hi, he⟩
  · exact .inl h
  · refine .inr ⟨ha, i, ?_, he⟩
    rw [hlog, List.drop_append, enabledTxqs_append]
    exact List.mem_append_left _ hi

theorem Owns.atq {since : ℕ} (h : Owns base since t .atq) : base .atq := by
  rcases h with h | ⟨h, -⟩
  · exact h
  · exact h

theorem Within.ranAtq (h : Within base d t) (own : Engine → Prop) (hown : ∀ e, own e → Owns base d.atq.log.length t' e)
    (hm : ModifiesOnly own t t') {new : List Event} (hlog : t'.atq.log = t.atq.log ++ new)
    (hcalls : ∀ x ∈ t'.calls, x ∈ t.calls ∨ own (callEngine x)) : Within base d t' := by
  have hmono : ∀ e, Owns base d.atq.log.length t e → Owns base d.atq.log.length t' e := fun e he => he.mono hlog
  refine ⟨(h.only.mono _ hmono).trans (hm.mono _ hown), fun x hx => ?_, ?_⟩
  · rcases hcalls x hx with hx | hx
    · exact hmono _ (h.calls x hx)
    · exact hown _ hx
  · obtain ⟨old, hold⟩ := h.log
    exact ⟨old ++ new, by rw [hlog, hold, List.append_assoc]⟩

theorem Within.next (h : Within base d t) (own : Engine → Prop) (hown : ∀ e, own e → Owns base d.atq.log.length t e)
    (hm : ModifiesOnly own t t') (hlog : t'.atq.log = t.atq.log)
    (hcalls : ∀ x ∈ t'.calls, x ∈ t.calls ∨ own (callEngine x)) : Within base d t' := by
  have hlog' : t'.atq.log = t.atq.log ++ [] := by rw [hlog, List.append_nil]
  exact h.ranAtq own (fun e he => (hown e he).mono hlog') hm hlog' hcalls

theorem rxTailUpdated_calls (d : Device) (i : ℕ) : ∀ x ∈ (d.rxTailUpdated i).calls, x ∈ d.calls ∨ callEngine x = .rx i := by
  intro x hx
  unfold Device.rxTailUpdated at hx
  split at hx
  · rcases List.mem_cons.mp hx with rfl | hx
    · exact .inr rfl
    · exact .inl hx
  · exact .inl hx

theorem Within.atq {env : Env AdminEnv} {cmd : Cmd Unit} {rest : List (Cmd Unit)} {c : Config AdminClient Unit}
    (h : Within base d t) (ht : Tidy t) (hc : t.calls.head? = some .atq) (hs : t.atq.stack = cmd :: rest)
    (he : exec AdminQueue.subclass env { t.atq with stack := rest } cmd = .ok c) :
    Within base d ((enabledTxqs (c.log.drop t.atq.log.length)).foldl Device.txQenaUpdated (t.setAtq c)) := by
  have hlive := ht.atq.live (by rw [hs]; simp)
  have hbase := (h.calls _ (List.mem_of_mem_head? hc)).atq
  obtain ⟨new, hlog⟩ := exec_log (c := { t.atq with stack := rest }) hlive he
  rcases exec_txqs hlive hs he with ⟨-, hn, -⟩ | ⟨i, ctx, -, -, hn, -⟩
  · rw [hn]
    refine h.ranAtq (· = .atq) ?_ ?_ hlog fun x hx => .inl hx
    · rintro e rfl
      exact .inl hbase
    · exact ⟨fun hne => absurd rfl hne, fun _ => rfl, fun _ _ => rfl, fun _ _ => rfl⟩
  · rw [hn]
    change Within base d ((t.setAtq c).txQenaUpdated i)
    have hlog' : ((t.setAtq c).txQenaUpdated i).atq.log = c.log := by
      rcases (ht.execAtq hc hs he).txQenaUpdated_cases i with ⟨-, hd⟩ | ⟨-, -, hd⟩
      · rw [hd]
        rfl
      · rw [hd]
        rfl
    refine h.ranAtq (fun e => e = .atq ∨ e = .tx i) ?_ ?_ (hlog'.trans hlog) fun x hx => ?_
    · rintro e (rfl | rfl)
      · exact .inl hbase
      · refine .inr ⟨hbase, i, ?_, rfl⟩
        obtain ⟨old, hold⟩ := h.log
        rw [hlog'.trans hlog, hold, List.append_assoc, List.drop_left, enabledTxqs_append]
        rw [hlog, List.drop_left] at hn
        rw [hn]
        exact List.mem_append_right _ (List.mem_singleton.mpr rfl)
    · rcases (ht.execAtq hc hs he).txQenaUpdated_cases i with ⟨-, hd⟩ | ⟨-, -, hd⟩
      · rw [hd]
        exact ⟨fun hne => absurd (.inl rfl) hne, fun _ => rfl, fun _ _ => rfl, fun _ _ => rfl⟩
      · rw [hd]
        refine ⟨fun hne => absurd (.inl rfl) hne, fun _ => rfl, fun _ _ => rfl, fun j hj => ?_⟩
        have hne : j ≠ i := fun h => hj (.inr (by rw [h]))
        exact Function.update_of_ne hne _ _
    · rcases (ht.execAtq hc hs he).txQenaUpdated_cases i with ⟨-, hd⟩ | ⟨-, -, hd⟩
      · rw [hd] at hx
        exact .inl hx
      · rw [hd] at hx
        rcases List.mem_cons.mp hx with rfl | hx
        · exact .inr (.inr rfl)
        · exact .inl hx

theorem Within.ran (h : Within base d t) (ht : Tidy t) (hr : Ran t t') : Within base d t' := by
  cases hr with
  | done call rest hs hq hr ht hu =>
    refine h.next (fun _ => False) (fun _ he => he.elim) ⟨fun _ => rfl, fun _ => rfl, fun _ _ => rfl, fun _ _ => rfl⟩
      rfl fun x hx => .inl ?_
    rw [hs]
    exact List.mem_cons_of_mem _ hx
  | atq env cmd rest c hc hs he => exact h.atq ht hc hs he
  | rx i env cmd rest c hc hs he =>
    have hown := h.calls _ (List.mem_of_mem_head? hc)
    refine h.next _ (fun e he => ?_) (modifiesOnly_setRx t i c) rfl fun x hx => .inl hx
    rw [he]
    exact hown
  | tx i env cmd rest c hc hs he =>
    have hown := h.calls _ (List.mem_of_mem_head? hc)
    refine h.next _ (fun e he => ?_) (modifiesOnly_setTx t i c) rfl fun x hx => .inl hx
    rw [he]
    exact hown
  | tailUpdated idx rest hs =>
    have hmem : Call.tailUpdated idx ∈ t.calls := by
      rw [hs]
      exact List.mem_cons_self
    have hown := h.calls _ hmem
    have hm : ModifiesOnly (· = .rx idx) t ({ t with calls := rest }.rxTailUpdated idx) := by
      have hm := modifiesOnly_rxTailUpdated { t with calls := rest } idx
      exact ⟨hm.atq, hm.mbx, hm.rx, hm.tx⟩
    refine h.next _ (fun e he => ?_) hm ?_ fun x hx => ?_
    · rw [he]
      exact hown
    · rw [hm.atq (by simp)]
    · rcases rxTailUpdated_calls { t with calls := rest } idx x hx with hx | hx
      · refine .inl ?_
        rw [hs]
        exact List.mem_cons_of_mem _ hx
      · exact .inr hx

/-- What a guest programs into a queue. -/
def program (q : QueueBase) : ℕ × ℕ × Bool × ℕ := (q.base, q.len, q.enabled, q.regTail)

theorem exec_program {ε ι σ κ : Type} {S : Subclass ε ι σ κ} {env : Env ε} {c c' : Config σ κ} {cmd : Cmd κ}
    (he : c.q.enabled = true) (h : exec S env c cmd = .ok c') : program c'.q = program c.q := by
  rcases exec_ring he h with ⟨-, hr, -⟩ | ⟨-, -, hr, -⟩ | ⟨-, -, hr, -⟩ | ⟨pos, n, -, hq, -⟩
  · exact congrArg (fun r : Ring => (r.base, r.len, r.enabled, r.tail)) hr
  · exact congrArg (fun r : Ring => (r.base, r.len, r.enabled, r.tail)) hr
  · exact congrArg (fun r : Ring => (r.base, r.len, r.enabled, r.tail)) hr
  · rw [hq]
    rfl

/-- The queues that keep what the guest has programmed into them. -/
structure Kept (t t' : Device) : Prop where
  atq : program t'.atq.q = program t.atq.q
  rx : ∀ i, program (t'.rxqs i).q = program (t.rxqs i).q
  tx : ∀ i, (t.txqs i).q.enabled = true → program (t'.txqs i).q = program (t.txqs i).q

theorem Kept.refl (t : Device) : Kept t t := ⟨rfl, fun _ => rfl, fun _ _ => rfl⟩

theorem Kept.trans {t'' : Device} (h : Kept t t') (h' : Kept t' t'') : Kept t t'' := by
  refine ⟨h'.atq.trans h.atq, fun i => (h'.rx i).trans (h.rx i), fun i he => ?_⟩
  have hp := h.tx i he
  have hen : (t'.txqs i).q.enabled = true := (congrArg (fun p => p.2.2.1) hp).trans he
  exact (h'.tx i hen).trans hp

theorem Kept.setRx {i : ℕ} {c : Config RxClient RxPacket} (hp : program c.q = program (t.rxqs i).q) :
    Kept t (t.setRx i c) := by
  refine ⟨rfl, fun j => ?_, fun _ _ => rfl⟩
  by_cases hj : j = i
  · subst hj
    simp only [Device.setRx, Function.update_self, hp]
  · simp only [Device.setRx, Function.update_of_ne hj]

theorem Kept.rxTailUpdated (t : Device) (i : ℕ) : Kept t (t.rxTailUpdated i) := by
  unfold Device.rxTailUpdated
  split
  · have h : Kept t (t.setRx i (regUpdated (t.rxqs i))) := .setRx rfl
    exact ⟨h.atq, h.rx, h.tx⟩
  · exact .refl t

theorem Kept.ran (ht : Tidy t) (hr : Ran t t') : Kept t t' := by
  cases hr with
  | done call rest hs hq hr ht hu => exact ⟨rfl, fun _ => rfl, fun _ _ => rfl⟩
  | atq env cmd rest c hc hs he =>
    have hlive := ht.atq.live (by rw [hs]; simp)
    have hp : program c.q = program t.atq.q := exec_program (c := { t.atq with stack := rest }) hlive he
    rcases exec_txqs hlive hs he with ⟨-, hn, -⟩ | ⟨i, ctx, -, -, hn, -⟩
    · rw [hn]
      exact ⟨hp, fun _ => rfl, fun _ _ => rfl⟩
    · rw [hn]
      change Kept t ((t.setAtq c).txQenaUpdated i)
      rcases (ht.execAtq hc hs he).txQenaUpdated_cases i with ⟨-, hd⟩ | ⟨hdis, -, hd⟩
      · rw [hd]
        exact ⟨hp, fun _ => rfl, fun _ _ => rfl⟩
      · rw [hd]
        refine ⟨hp, fun _ => rfl, fun j hj => ?_⟩
        change (t.txqs i).q.enabled = false at hdis
        have hne : j ≠ i := by
          rintro rfl
          rw [hdis] at hj
          cases hj
        exact congrArg (fun c : Config TxClient Unit => program c.q) (Function.update_of_ne hne _ _)
  | rx i env cmd rest c hc hs he =>
    exact .setRx (exec_program (c := { t.rxqs i with stack := rest }) ((ht.rxqs i).live (by rw [hs]; simp)) he)
  | tx i env cmd rest c hc hs he =>
    have hp : program c.q = program (t.txqs i).q :=
      exec_program (c := { t.txqs i with stack := rest }) ((ht.txqs i).live (by rw [hs]; simp)) he
    refine ⟨rfl, fun _ => rfl, fun j _ => ?_⟩
    by_cases hj : j = i
    · subst hj
      simp only [Device.setTx, Function.update_self, hp]
    · simp only [Device.setTx, Function.update_of_ne hj]
  | tailUpdated idx rest hs =>
    have h := Kept.rxTailUpdated { t with calls := rest } idx
    exact ⟨h.atq, h.rx, h.tx⟩

def Runs (t t' : Device) : Prop := Relation.ReflTransGen (fun a b => Step a .run b) t t'

theorem runs_of_rest (hs : t.calls = []) (hr : Runs t t') : t' = t := by
  rcases Relation.ReflTransGen.cases_head hr with h | ⟨x, hx, -⟩
  · exact h.symm
  · cases hx with
    | run env call rest hc hrun =>
      rw [hs] at hc
      cases hc

theorem runs_within (h : Within base d t) (ht : Tidy t) (hr : Runs t t') : Within base d t' ∧ Tidy t' ∧ Kept t t' := by
  induction hr with
  | refl => exact ⟨h, ht, .refl t⟩
  | tail _ hs ih =>
    obtain ⟨hw, ht', hk⟩ := ih
    cases hs with
    | run env call rest hc hrun =>
      have hran := ran_of_run hc hrun
      exact ⟨hw.ran ht' hran, ht'.ran hran, hk.trans (.ran ht' hran)⟩

/-- The registers that speak to a queue. -/
inductive Doorbell
  | commDbell (q : ℕ)
  | rxTail (q : ℕ)
  | rxCtrl (q : ℕ)
  | atqbal
  | atqbah
  | atqlen
  | atqh
  | atqt
deriving DecidableEq, Repr

namespace Doorbell

def addr : Doorbell → ℕ
  | commDbell q => 0x2C0000 + 4 * q
  | rxTail q => 0x290000 + 4 * q
  | rxCtrl q => 0x120000 + 4 * q
  | atqbal => 0x080000
  | atqbah => 0x080100
  | atqlen => 0x080200
  | atqh => 0x080300
  | atqt => 0x080400

/-- The registers as the guest addresses them: 2048 of each array. QRX_TAIL is stored in an array of 256, so that from
queue 256 on the write ends out of bounds. -/
def Valid : Doorbell → Prop
  | commDbell q | rxTail q | rxCtrl q => q < 2048
  | _ => True

/-- The queue a register belongs to. A receive queue that gets enabled passes its tail on as the
index of another queue, about which nothing is said. -/
def owner (d : Device) (val : ℕ) : Doorbell → Engine → Prop
  | commDbell q, e => e = .tx q
  | rxTail q, e => e = .rx q
  | rxCtrl q, e => e = .rx q ∨ val % 2 = 1 ∧ (d.rxqs q).q.enabled = false ∧ e = .rx (tailIndex d.regs q)
  | _, e => e = .atq

def stored (regs : Regs) (val : ℕ) : Doorbell → Regs
  | commDbell q => (regs.store .qtxCommDbell q val).store .qtxTail q val
  | rxTail q => regs.store .qrxTail q (val % 0x2000)
  | rxCtrl q => (regs.store .qrxCtrl q ((val + 4) % 0x100000000)).store .qrxEna q val
  | atqbal => regs.set .pfAtqba (val + regs.reg .pfAtqba / 0x100000000 * 0x100000000)
  | atqbah => regs.set .pfAtqba (val * 0x100000000 + regs.reg .pfAtqba % 0x100000000)
  | atqlen => regs.set .pfAtqlen val
  | atqh => regs.set .pfAtqh val
  | atqt => regs.set .pfAtqt val

def note : Doorbell → Notify
  | commDbell q => .tailUpdated q false
  | rxTail q => .tailUpdated q true
  | rxCtrl q => .qenaUpdated q true
  | _ => .atqRegUpdated

end Doorbell

theorem lookup_split {α : Type} {pre post : List (AddressMap.Range α)} {r : AddressMap.Range α} {addr : ℕ}
    (hpre : ∀ x ∈ pre, ¬x.Covers addr) (hr : r.Covers addr) : AddressMap.lookup (pre ++ r :: post) addr = some r := by
  have hnone : pre.find? (fun x => x.Covers addr) = none := by
    rw [List.find?_eq_none]
    intro x hx
    simpa using hpre x hx
  rw [AddressMap.lookup, List.find?_append, hnone, Option.none_or, List.find?_cons_of_pos (by simpa using hr)]

theorem writeRanges_split (n : ℕ) {r : AddressMap.Range WriteAction}
    (h : (writeRanges ++ writeCases)[n]? = some r) :
    writeRanges ++ writeCases = (writeRanges ++ writeCases).take n ++ r :: (writeRanges ++ writeCases).drop (n + 1) := by
  obtain ⟨hn, hr⟩ := List.getElem?_eq_some_iff.mp h
  rw [← hr, List.getElem_cons_drop, List.take_append_drop]

theorem regMemWrite32_range (ptp : PtpClock) (en : ℕ → Bool) (regs : Regs) {addr : ℕ} (val n : ℕ)
    {r : AddressMap.Range WriteAction} (hn : (writeRanges ++ writeCases)[n]? = some r)
    (hpre : ∀ x ∈ (writeRanges ++ writeCases).take n, ¬x.Covers addr) (hr : r.Covers addr) :
    regMemWrite32 ptp en regs addr val =
      if ∀ a ∈ r.target.accesses regs en (r.index addr) val, a.InBounds then .ok (r.target.run regs (r.index addr) val)
      else .error .outOfBounds := by
  have hl : AddressMap.lookup (writeRanges ++ writeCases) addr = some r := by
    rw [writeRanges_split n hn]
    exact lookup_split hpre hr
  unfold regMemWrite32 writeAccesses
  rw [hl]

variable {ptp : PtpClock} {en : ℕ → Bool} {regs : Regs} {val : ℕ} {r : Regs × List Notify}

theorem ok_of_if {p : Prop} [Decidable p] {a b : Regs × List Notify}
    (h : (if p then .ok a else .error .outOfBounds : Except Fault (Regs × List Notify)) = .ok b) : p ∧ a = b := by
  split at h
  · cases h
    exact ⟨‹_›, rfl⟩
  · cases h

theorem not_covers {addr : ℕ} (n lo hi : ℕ) (h : ∀ x ∈ (writeRanges ++ writeCases).take n, x.hi < lo ∨ hi < x.lo)
    (h1 : lo ≤ addr) (h2 : addr ≤ hi) : ∀ x ∈ (writeRanges ++ writeCases).take n, ¬x.Covers addr := by
  rintro x hx ⟨hl, hu⟩
  rcases h x hx with h | h
  · omega
  · omega

theorem commDbell_write {q : ℕ} (hq : q < 2048)
    (h : regMemWrite32 ptp en regs (0x2C0000 + 4 * q) val = .ok r) :
    r = ((Doorbell.commDbell q).stored regs val, [.tailUpdated q false]) := by
  have hpre := not_covers 1 0x2C0000 0x2C1FFC (by decide) (by omega : _ ≤ 0x2C0000 + 4 * q) (by omega)
  rw [regMemWrite32_range ptp en regs val 1 rfl hpre ⟨by dsimp only; omega, by dsimp only; omega⟩] at h
  obtain ⟨-, rfl⟩ := ok_of_if h
  have hi : (0x2C0000 + 4 * q - 0x2C0000) / 4 = q := by omega
  change WriteAction.run regs ((0x2C0000 + 4 * q - 0x2C0000) / 4) val .commDbell = _
  rw [hi]
  rfl

theorem rxCtrl_write {q : ℕ} (hq : q < 2048)
    (h : regMemWrite32 ptp en regs (0x120000 + 4 * q) val = .ok r) :
    r = ((Doorbell.rxCtrl q).stored regs val, [.qenaUpdated q true]) := by
  have hpre := not_covers 3 0x120000 0x121FFC (by decide) (by omega : _ ≤ 0x120000 + 4 * q) (by omega)
  rw [regMemWrite32_range ptp en regs val 3 rfl hpre ⟨by dsimp only; omega, by dsimp only; omega⟩] at h
  obtain ⟨-, rfl⟩ := ok_of_if h
  have hi : (0x120000 + 4 * q - 0x120000) / 4 = q := by omega
  change WriteAction.run regs ((0x120000 + 4 * q - 0x120000) / 4) val .rxCtrl = _
  rw [hi]
  rfl

/-- From `QRX_TAIL(256)` on the address is taken for an element of `QRX_CONTEXT` beyond its end. -/
theorem rxTail_write {q : ℕ} (hq : q < 2048)
    (h : regMemWrite32 ptp en regs (0x290000 + 4 * q) val = .ok r) :
    r = ((Doorbell.rxTail q).stored regs val, [.tailUpdated q true]) := by
  by_cases hlt : q < 256
  · have hpre := not_covers 2 0x290000 0x2903FC (by decide) (by omega : _ ≤ 0x290000 + 4 * q) (by omega)
    rw [regMemWrite32_range ptp en regs val 2 rfl hpre ⟨by dsimp only; omega, by dsimp only; omega⟩] at h
    obtain ⟨-, rfl⟩ := ok_of_if h
    have hi : (0x290000 + 4 * q - 0x290000) / 4 = q := by omega
    change WriteAction.run regs ((0x290000 + 4 * q - 0x290000) / 4) val .rxTail = _
    rw [hi]
    rfl
  · exfalso
    have hpre := not_covers 13 0x290400 0x291FFC (by decide) (by omega : _ ≤ 0x290000 + 4 * q) (by omega)
    rw [regMemWrite32_range ptp en regs val 13 rfl hpre ⟨by dsimp only; omega, by dsimp only; omega⟩] at h
    have hb := (ok_of_if h).1 (.reg .qrxContext ((0x290000 + 4 * q - 0x280000) / 4)) List.mem_cons_self
    change (0x290000 + 4 * q - 0x280000) / 4 < 8 * 2048 at hb
    omega

theorem atq_write {addr : ℕ} {st : RegStore} (h1 : AddressMap.lookup (writeRanges ++ writeCases) addr = none)
    (h2 : writeSwitch.lookup addr = some (st, [.atqRegUpdated])) (h3 : addr ≠ gltsynCmdSync)
    (h4 : enaCases.lookup addr = none) (h : regMemWrite32 ptp en regs addr val = .ok r) :
    r = (st.apply regs val, [.atqRegUpdated]) := by
  rw [regMemWrite32_switch ptp en regs val h1 h2 h3 h4] at h
  exact (Except.ok.inj h).symm

theorem doorbell_write {b : Doorbell} (hb : b.Valid) (h : regMemWrite32 ptp en regs b.addr val = .ok r) :
    r = (b.stored regs val, [b.note]) := by
  cases b with
  | commDbell q => exact commDbell_write hb h
  | rxTail q => exact rxTail_write hb h
  | rxCtrl q => exact rxCtrl_write hb h
  | _ => exact atq_write (by decide) rfl (by decide) rfl h

/-- The queue has these values, and if it is enabled it is about to run `trigger` with them. -/
structure Told {σ κ : Type} (p : ℕ × ℕ × Bool × ℕ) (c : Config σ κ) : Prop where
  program_eq : program c.q = p
  trigger_eq : c.q.enabled = true → c.stack = trigger κ

theorem Told.regUpdated {σ κ : Type} {c : Config σ κ} {p : ℕ × ℕ × Bool × ℕ} (hs : c.stack = [])
    (hp : program c.q = p) : Told p (regUpdated c) := by
  refine ⟨hp, fun he => ?_⟩
  change c.q.enabled = true at he
  simp only [Nic.regUpdated, he, if_true, hs, List.append_nil]

namespace Doorbell

/-- The queue of a register sees what was written. The base and the length of a receive queue are
read from `QRX_CONTEXT` when it is enabled. -/
def Sees (d d' : Device) (val : ℕ) : Doorbell → Prop
  | commDbell q => Told ((d.txqs q).q.base, (d.txqs q).q.len, (d.txqs q).q.enabled, val) (d'.txqs q)
  | rxTail q => Told ((d.rxqs q).q.base, (d.rxqs q).q.len, (d.rxqs q).q.enabled, val % 0x2000) (d'.rxqs q)
  | rxCtrl q =>
    if val % 2 = 1 ∧ (d.rxqs q).q.enabled = false then
      Told (rxBase (rxContext d.regs q), rxLen (rxContext d.regs q), true, d.regs.arr .qrxTail q) (d'.rxqs q)
    else program (d'.rxqs q).q = ((d.rxqs q).q.base, (d.rxqs q).q.len, decide (val % 2 = 1), d.regs.arr .qrxTail q)
  | b =>
    d'.regs = b.stored d.regs val ∧
      Told (d'.regs.reg .pfAtqba, atqLen d'.regs, atqEnabled d'.regs, d'.regs.reg .pfAtqt) d'.atq

/-- All that the write has set off is done, and the queue is still programmed as it was. -/
def Settled (d d' : Device) : Doorbell → Prop
  | commDbell q => program (d'.txqs q).q = program (d.txqs q).q ∧ (d'.txqs q).stack = []
  | rxTail q | rxCtrl q => program (d'.rxqs q).q = program (d.rxqs q).q ∧ (d'.rxqs q).stack = []
  | _ => program d'.atq.q = program d.atq.q ∧ d'.atq.stack = []

end Doorbell

theorem modifiesOnly_setRegs (own : Engine → Prop) (ht : Tidy d) {regs : Regs}
    (hatq : ¬own .atq → regs.reg .pfAtqh = d.regs.reg .pfAtqh ∧ regs.reg .pfAtqt = d.regs.reg .pfAtqt)
    (hmbx : regs.reg .pfMbxAtqh = d.regs.reg .pfMbxAtqh ∧ regs.reg .pfMbxAtqt = d.regs.reg .pfMbxAtqt)
    (hrx : ∀ i, ¬own (.rx i) → regs.arr .qrxTail i = d.regs.arr .qrxTail i)
    (htx : ∀ i, ¬own (.tx i) → regs.arr .qtxCommDbell i = d.regs.arr .qtxCommDbell i) :
    ModifiesOnly own d (d.setRegs regs) := by
  refine ⟨fun hn => ?_, fun _ => ?_, fun i hn => ?_, fun i hn => ?_⟩
  · simp only [Device.setRegs, (hatq hn).1, (hatq hn).2, ← ht.head, ← ht.atq.tail_eq]
  · simp only [Device.setRegs, hmbx.1, hmbx.2, ← ht.mbx.1, ← ht.mbx.2]
  · simp only [Device.setRegs, hrx i hn, ← (ht.rxqs i).tail_eq]
  · simp only [Device.setRegs, htx i hn, ← (ht.txqs i).tail_eq]

/-- What a doorbell does before anything is fetched. -/
structure Rung (b : Doorbell) (d d' : Device) (val : ℕ) : Prop where
  sees : b.Sees d d' val
  within : Within (b.owner d val) d d'
  tidy : Tidy d'

theorem store_self (regs : Regs) (a : RegArray) (i v : ℕ) : (regs.store a i v).arr a i = v := by
  simp [Regs.store]

theorem store_of_ne (regs : Regs) {a a' : RegArray} {i j : ℕ} (v : ℕ) (h : a' ≠ a ∨ j ≠ i) :
    (regs.store a i v).arr a' j = regs.arr a' j := by
  unfold Regs.store
  dsimp only
  by_cases ha : a' = a
  · subst ha
    rw [Function.update_self, Function.update_of_ne (h.resolve_left (by simp))]
  · rw [Function.update_of_ne ha]

theorem within_of_modifiesOnly (hm : ModifiesOnly base d d') (hc : ∀ x ∈ d'.calls, base (callEngine x))
    (hlog : d'.atq.log = d.atq.log) : Within base d d' :=
  ⟨hm.mono _ fun _ he => .inl he, fun x hx => .inl (hc x hx), [], by rw [hlog, List.append_nil]⟩

theorem commDbell_rung {q : ℕ} (ht : Tidy d) (hs : d.calls = [])
    (hd : (d.setRegs ((Doorbell.commDbell q).stored d.regs val)).notify (.tailUpdated q false) = .ok d') :
    Rung (.commDbell q) d d' val := by
  have htail : ((Doorbell.commDbell q).stored d.regs val).arr .qtxCommDbell q = val := by
    rw [Doorbell.stored, store_of_ne _ _ (.inl (by decide)), store_self]
  have hstored : ModifiesOnly (· = .tx q) d (d.setRegs ((Doorbell.commDbell q).stored d.regs val)) := by
    refine modifiesOnly_setRegs _ ht (fun _ => ⟨rfl, rfl⟩) ⟨rfl, rfl⟩ (fun i _ => ?_) fun i hi => ?_
    · rw [Doorbell.stored, store_of_ne _ _ (.inl (by decide)), store_of_ne _ _ (.inl (by decide))]
    · have hne : i ≠ q := fun h => hi (by rw [h])
      rw [Doorbell.stored, store_of_ne _ _ (.inl (by decide)), store_of_ne _ _ (.inr hne)]
  have htidy := (ht.setRegs ((Doorbell.commDbell q).stored d.regs val)).notify hs hd
  obtain rfl := Except.ok.inj hd
  have hnil : ((d.setRegs ((Doorbell.commDbell q).stored d.regs val)).txqs q).stack = [] := (ht.txqs q).at_rest hs
  refine ⟨?_, within_of_modifiesOnly (hstored.trans (modifiesOnly_txTailUpdated _ q)) ?_ ?_, htidy⟩
  · have hp : program ((d.setRegs ((Doorbell.commDbell q).stored d.regs val)).txqs q).q =
        ((d.txqs q).q.base, (d.txqs q).q.len, (d.txqs q).q.enabled, val) := by
      simp only [program, Device.setRegs, htail]
    unfold Device.txTailUpdated
    split
    · rw [Doorbell.Sees, ← hp]
      have hq : (((d.setRegs ((Doorbell.commDbell q).stored d.regs val)).setTx q (regUpdated
          ((d.setRegs ((Doorbell.commDbell q).stored d.regs val)).txqs q))).push [.tx q]).txqs q = regUpdated
          ((d.setRegs ((Doorbell.commDbell q).stored d.regs val)).txqs q) := Function.update_self _ _ _
      rw [hq]
      exact .regUpdated hnil rfl
    · rename_i hdis
      exact ⟨hp, fun he => absurd he hdis⟩
  · intro x hx
    unfold Device.txTailUpdated at hx
    split at hx
    · change x ∈ .tx q :: d.calls at hx
      rw [hs] at hx
      rw [List.mem_singleton.mp hx]
      rfl
    · change x ∈ d.calls at hx
      rw [hs] at hx
      cases hx
  · unfold Device.txTailUpdated
    split
    · rfl
    · rfl

theorem rxTail_rung {q : ℕ} (ht : Tidy d) (hs : d.calls = [])
    (hd : (d.setRegs ((Doorbell.rxTail q).stored d.regs val)).notify (.tailUpdated q true) = .ok d') :
    Rung (.rxTail q) d d' val := by
  have htail : ((Doorbell.rxTail q).stored d.regs val).arr .qrxTail q = val % 0x2000 := store_self _ _ _ _
  have hstored : ModifiesOnly (· = .rx q) d (d.setRegs ((Doorbell.rxTail q).stored d.regs val)) := by
    refine modifiesOnly_setRegs _ ht (fun _ => ⟨rfl, rfl⟩) ⟨rfl, rfl⟩ (fun i hi => ?_) fun i _ => ?_
    · have hne : i ≠ q := fun h => hi (by rw [h])
      exact store_of_ne _ _ (.inr hne)
    · exact store_of_ne _ _ (.inl (by decide))
  have htidy := (ht.setRegs ((Doorbell.rxTail q).stored d.regs val)).notify hs hd
  obtain rfl := Except.ok.inj hd
  have hnil : ((d.setRegs ((Doorbell.rxTail q).stored d.regs val)).rxqs q).stack = [] := (ht.rxqs q).at_rest hs
  refine ⟨?_, within_of_modifiesOnly (hstored.trans (modifiesOnly_rxTailUpdated _ q)) ?_ ?_, htidy⟩
  · have hp : program ((d.setRegs ((Doorbell.rxTail q).stored d.regs val)).rxqs q).q =
        ((d.rxqs q).q.base, (d.rxqs q).q.len, (d.rxqs q).q.enabled, val % 0x2000) := by
      simp only [program, Device.setRegs, htail]
    unfold Device.rxTailUpdated
    split
    · rw [Doorbell.Sees, ← hp]
      have hq : (((d.setRegs ((Doorbell.rxTail q).stored d.regs val)).setRx q (regUpdated
          ((d.setRegs ((Doorbell.rxTail q).stored d.regs val)).rxqs q))).push [.rx q]).rxqs q = regUpdated
          ((d.setRegs ((Doorbell.rxTail q).stored d.regs val)).rxqs q) := Function.update_self _ _ _
      rw [hq]
      exact .regUpdated hnil rfl
    · rename_i hdis
      exact ⟨hp, fun he => absurd he hdis⟩
  · intro x hx
    rcases rxTailUpdated_calls _ q x hx with hx | hx
    · change x ∈ d.calls at hx
      rw [hs] at hx
      cases hx
    · exact hx
  · have hatq := (modifiesOnly_rxTailUpdated (d.setRegs ((Doorbell.rxTail q).stored d.regs val)) q).atq (by simp)
    rw [hatq]
    rfl

theorem rxEnable_told {ctx : List UInt8} {c c' : Config RxClient RxPacket} (h : rxEnable ctx c = .ok c')
    (hs : c.stack = []) : Told (rxBase ctx, rxLen ctx, true, c.q.regTail) c' := by
  rw [rxEnable_ok h]
  apply Told.regUpdated
  · exact hs
  · rfl

theorem atqRegUpdated_told (regs : Regs) {c : Config AdminClient Unit} (hs : c.stack = []) :
    Told (regs.reg .pfAtqba, atqLen regs, atqEnabled regs, c.q.regTail) (Nic.atqRegUpdated regs c) := by
  unfold Nic.atqRegUpdated
  apply Told.regUpdated
  · exact hs
  · rfl

theorem rxContext_stored (regs : Regs) (q val : ℕ) :
    rxContext ((Doorbell.rxCtrl q).stored regs val) q = rxContext regs q := rfl

theorem rxCtrl_rung {q : ℕ} (ht : Tidy d) (hs : d.calls = [])
    (hd : (d.setRegs ((Doorbell.rxCtrl q).stored d.regs val)).notify (.qenaUpdated q true) = .ok d') :
    Rung (.rxCtrl q) d d' val := by
  have hreg : ∀ a i, a ≠ .qrxCtrl → a ≠ .qrxEna → ((Doorbell.rxCtrl q).stored d.regs val).arr a i = d.regs.arr a i := by
    intro a i h1 h2
    rw [Doorbell.stored, store_of_ne _ _ (.inl h2), store_of_ne _ _ (.inl h1)]
  have hena : ((Doorbell.rxCtrl q).stored d.regs val).arr .qrxEna q = val := store_self _ _ _ _
  have hctx := rxContext_stored d.regs q val
  have htail : tailIndex ((Doorbell.rxCtrl q).stored d.regs val) q = tailIndex d.regs q := by
    rw [tailIndex, hreg _ _ (by decide) (by decide), tailIndex]
  have hstored : d.setRegs ((Doorbell.rxCtrl q).stored d.regs val) =
      { d with regs := (Doorbell.rxCtrl q).stored d.regs val } := by
    have hm : ModifiesOnly (fun _ => False) d (d.setRegs ((Doorbell.rxCtrl q).stored d.regs val)) :=
      modifiesOnly_setRegs _ ht (fun _ => ⟨rfl, rfl⟩) ⟨rfl, rfl⟩ (fun i _ => hreg _ _ (by decide) (by decide))
        fun i _ => hreg _ _ (by decide) (by decide)
    have h1 := hm.atq id
    have h2 := hm.mbx id
    have h3 : (d.setRegs ((Doorbell.rxCtrl q).stored d.regs val)).rxqs = d.rxqs := funext fun i => hm.rx i id
    have h4 : (d.setRegs ((Doorbell.rxCtrl q).stored d.regs val)).txqs = d.txqs := funext fun i => hm.tx i id
    calc d.setRegs ((Doorbell.rxCtrl q).stored d.regs val)
        = ⟨(Doorbell.rxCtrl q).stored d.regs val, (d.setRegs ((Doorbell.rxCtrl q).stored d.regs val)).atq,
            (d.setRegs ((Doorbell.rxCtrl q).stored d.regs val)).mbx,
            (d.setRegs ((Doorbell.rxCtrl q).stored d.regs val)).rxqs,
            (d.setRegs ((Doorbell.rxCtrl q).stored d.regs val)).txqs, d.calls⟩ := rfl
      _ = { d with regs := (Doorbell.rxCtrl q).stored d.regs val } := by rw [h1, h2, h3, h4]
  have htidy := (ht.setRegs ((Doorbell.rxCtrl q).stored d.regs val)).notify hs hd
  have hnil := (ht.rxqs q).at_rest hs
  change (d.setRegs ((Doorbell.rxCtrl q).stored d.regs val)).rxQenaUpdated q = .ok d' at hd
  rw [hstored] at hd
  rcases rxQenaUpdated_cases hd with ⟨hodd, hdis, c, v, hc, rfl⟩ | ⟨hev, hen, v, rfl⟩ | ⟨hiff, rfl⟩
  · dsimp only at hodd hdis hc htidy ⊢
    rw [hctx] at hc
    rw [hena] at hodd
    rw [htail] at htidy ⊢
    refine ⟨?_, within_of_modifiesOnly ?_ ?_ rfl, htidy⟩
    · rw [Doorbell.Sees, if_pos ⟨hodd, hdis⟩]
      have hq : (Device.push (Device.setRx { d with regs := Regs.store ((Doorbell.rxCtrl q).stored d.regs val) .qrxEna q v }
          q c) [.rx q, .tailUpdated (tailIndex d.regs q)]).rxqs q = c := Function.update_self _ _ _
      rw [hq, ← (ht.rxqs q).tail_eq]
      exact rxEnable_told hc hnil
    · have hm := modifiesOnly_setRx { d with regs := Regs.store ((Doorbell.rxCtrl q).stored d.regs val) .qrxEna q v } q c
      have hm := (hm.push [.rx q, .tailUpdated (tailIndex d.regs q)]).mono ((Doorbell.rxCtrl q).owner d val)
        fun e he => .inl he
      exact ⟨hm.atq, hm.mbx, hm.rx, hm.tx⟩
    · intro x hx
      change x ∈ .rx q :: .tailUpdated (tailIndex d.regs q) :: d.calls at hx
      rw [hs] at hx
      simp only [List.mem_cons, List.not_mem_nil, or_false] at hx
      rcases hx with rfl | rfl
      · exact .inl rfl
      · exact .inr ⟨hodd, hdis, rfl⟩
  · rw [hena] at hev
    refine ⟨?_, within_of_modifiesOnly ?_ ?_ rfl, htidy⟩
    · rw [Doorbell.Sees, if_neg (by omega)]
      have hq : (Device.setRx { d with regs := Regs.store ((Doorbell.rxCtrl q).stored d.regs val) .qrxEna q v }
          q (disable (d.rxqs q))).rxqs q = disable (d.rxqs q) := Function.update_self _ _ _
      rw [hq, decide_eq_false (by omega), ← (ht.rxqs q).tail_eq]
      rfl
    · have hm := modifiesOnly_setRx { d with regs := Regs.store ((Doorbell.rxCtrl q).stored d.regs val) .qrxEna q v } q
        (disable (d.rxqs q))
      have hm := hm.mono ((Doorbell.rxCtrl q).owner d val) fun e he => .inl he
      exact ⟨hm.atq, hm.mbx, hm.rx, hm.tx⟩
    · intro x hx
      change x ∈ d.calls at hx
      rw [hs] at hx
      cases hx
  · rw [hena] at hiff
    change val % 2 = 1 ↔ (d.rxqs q).q.enabled = true at hiff
    refine ⟨?_, within_of_modifiesOnly ⟨fun _ => rfl, fun _ => rfl, fun _ _ => rfl, fun _ _ => rfl⟩ ?_ rfl, htidy⟩
    · rw [Doorbell.Sees, if_neg]
      · have hb : (d.rxqs q).q.enabled = decide (val % 2 = 1) := by
          rw [Bool.eq_iff_iff, decide_eq_true_eq]
          exact hiff.symm
        rw [← hb, ← (ht.rxqs q).tail_eq]
        rfl
      · rintro ⟨hodd, hdis⟩
        rw [hiff.mp hodd] at hdis
        cases hdis
    · intro x hx
      change x ∈ d.calls at hx
      rw [hs] at hx
      cases hx

theorem sees_atq {b : Doorbell} (hn : b.note = .atqRegUpdated) (hr : d'.regs = b.stored d.regs val)
    (ht : Told (d'.regs.reg .pfAtqba, atqLen d'.regs, atqEnabled d'.regs, d'.regs.reg .pfAtqt) d'.atq) :
    b.Sees d d' val := by
  cases b with
  | commDbell q => cases hn
  | rxTail q => cases hn
  | rxCtrl q => cases hn
  | _ => exact ⟨hr, ht⟩

theorem owner_atq {b : Doorbell} (hn : b.note = .atqRegUpdated) : b.owner d val = (· = .atq) := by
  cases b with
  | commDbell q => cases hn
  | rxTail q => cases hn
  | rxCtrl q => cases hn
  | _ => rfl

theorem atq_rung {b : Doorbell} (ht : Tidy d) (hs : d.calls = []) (hn : b.note = .atqRegUpdated)
    (hm : ModifiesOnly (· = .atq) d (d.setRegs (b.stored d.regs val)))
    (hd : (d.setRegs (b.stored d.regs val)).notify .atqRegUpdated = .ok d') : Rung b d d' val := by
  have htidy := (ht.setRegs (b.stored d.regs val)).notify hs hd
  have hnil := ht.atq.at_rest hs
  obtain rfl := Except.ok.inj hd
  have htold : Told ((b.stored d.regs val).reg .pfAtqba, atqLen (b.stored d.regs val), atqEnabled (b.stored d.regs val),
      (b.stored d.regs val).reg .pfAtqt) (Nic.atqRegUpdated (b.stored d.regs val) (d.setRegs (b.stored d.regs val)).atq) :=
    atqRegUpdated_told (c := (d.setRegs (b.stored d.regs val)).atq) _ hnil
  have hmod : ModifiesOnly (· = .atq) d (Device.push { d.setRegs (b.stored d.regs val) with
      atq := Nic.atqRegUpdated (b.stored d.regs val) (d.setRegs (b.stored d.regs val)).atq } [.atq]) :=
    ⟨fun hne => absurd rfl hne, hm.mbx, hm.rx, hm.tx⟩
  have hcalls : ∀ x ∈ [Call.atq] ++ d.calls, callEngine x = .atq := by
    rw [hs]
    simp [callEngine]
  refine ⟨sees_atq hn rfl htold, ?_, htidy⟩
  rw [owner_atq hn]
  exact within_of_modifiesOnly hmod hcalls rfl

theorem doorbell_rung {b : Doorbell} (ht : Tidy d) (hs : d.calls = [])
    (hd : (d.setRegs (b.stored d.regs val)).notify b.note = .ok d') : Rung b d d' val := by
  have hatq : ∀ x v, x ≠ .pfMbxAtqh → x ≠ .pfMbxAtqt → ModifiesOnly (· = .atq) d (d.setRegs (d.regs.set x v)) := by
    intro x v h1 h2
    refine modifiesOnly_setRegs _ ht (fun hne => absurd rfl hne) ⟨?_, ?_⟩ (fun _ _ => rfl) fun _ _ => rfl
    · exact Function.update_of_ne h1.symm _ _
    · exact Function.update_of_ne h2.symm _ _
  cases b with
  | commDbell q => exact commDbell_rung ht hs hd
  | rxTail q => exact rxTail_rung ht hs hd
  | rxCtrl q => exact rxCtrl_rung ht hs hd
  | _ => exact atq_rung ht hs rfl (hatq _ _ (by decide) (by decide)) hd

theorem doorbell_notify {b : Doorbell} {env : DeviceEnv} (hb : b.Valid) (hw : d.regWrite env b.addr val = .ok d') :
    (d.setRegs (b.stored d.regs val)).notify b.note = .ok d' := by
  obtain ⟨r, hr, hcases⟩ := regWrite_cases hw
  obtain rfl := doorbell_write hb hr
  rcases hcases with ⟨hsil, -⟩ | ⟨n, hn, hd⟩
  · have hq := hsil b.note List.mem_cons_self
    cases b <;> cases hq
  · rwa [List.singleton_inj.mp hn]

/-- A write to a register of a queue is seen by that queue, and until the device is at rest again
no other queue is touched, but for the transmit queues that `add_txqs` commands enable. -/
theorem doorbell_routed (d : Device) (h : device.Reachable d) (hs : d.calls = []) (b : Doorbell) (hb : b.Valid)
    (val : ℕ) (env : DeviceEnv) (d' : Device) (hw : d.regWrite env b.addr val = .ok d') :
    b.Sees d d' val ∧ ∀ t, Runs d' t → ModifiesOnly (Owns (b.owner d val) d.atq.log.length t) d t ∧
      (t.calls = [] → b.Settled d' t) := by
  have ht := Tidy.reachable h
  have hd := doorbell_notify hb hw
  have hrung := doorbell_rung ht hs hd
  refine ⟨hrung.sees, fun t hrun => ?_⟩
  obtain ⟨hwithin, htidy, hkept⟩ := runs_within hrung.within hrung.tidy hrun
  refine ⟨hwithin.only, fun hrest => ?_⟩
  cases b with
  | commDbell q =>
    refine ⟨?_, (htidy.txqs q).at_rest hrest⟩
    by_cases he : (d'.txqs q).q.enabled = true
    · exact hkept.tx q he
    · have hsees : Told ((d.txqs q).q.base, (d.txqs q).q.len, (d.txqs q).q.enabled, val) (d'.txqs q) := hrung.sees
      have hdis : ¬(d.txqs q).q.enabled = true := fun h => he ((congrArg (fun p => p.2.2.1) hsees.program_eq).trans h)
      have hsame : (d.setRegs ((Doorbell.commDbell q).stored d.regs val)).txTailUpdated q =
          d.setRegs ((Doorbell.commDbell q).stored d.regs val) := if_neg hdis
      have hcalls : d'.calls = [] := by
        rw [← Except.ok.inj hd, hsame]
        exact hs
      rw [runs_of_rest hcalls hrun]
  | rxTail q => exact ⟨hkept.rx q, (htidy.rxqs q).at_rest hrest⟩
  | rxCtrl q => exact ⟨hkept.rx q, (htidy.rxqs q).at_rest hrest⟩
  | _ => exact ⟨hkept.atq, htidy.atq.at_rest hrest⟩

/-- Run up to `n` pending calls. -/
def runAll (env : DeviceEnv) : ℕ → Device → Except Fault Device
  | 0, d => .ok d
  | n + 1, d =>
    match d.calls with
    | [] => .ok d
    | call :: rest => do runAll env n (← Device.run env { d with calls := rest } call)

theorem runAll_runs {env : DeviceEnv} {n : ℕ} (h : runAll env n t = .ok t') : Runs t t' := by
  induction n generalizing t with
  | zero =>
    cases h
    exact .refl
  | succ n ih =>
    rw [runAll] at h
    split at h
    · cases h
      exact .refl
    · rename_i call rest hc
      obtain ⟨x, hx, h⟩ := bind_ok h
      exact .head (.run env call rest hc hx) (ih h)

theorem runs_reachable (h : device.Reachable t) (hr : Runs t t') : device.Reachable t' := by
  induction hr with
  | refl => exact h
  | tail _ hstep ih => exact .step ih ⟨_, hstep⟩

def guestWrites (env : DeviceEnv) (n : ℕ) : List (ℕ × ℕ) → Device → Except Fault Device
  | [], d => .ok d
  | (addr, val) :: ws, d => do
    let d ← d.regWrite env addr val
    let d ← runAll env n d
    if d.calls = [] then guestWrites env n ws d else .error .abort

theorem guestWrites_reachable {env : DeviceEnv} {n : ℕ} {ws : List (ℕ × ℕ)} (hv : ∀ w ∈ ws, w.2 < 0x100000000)
    (h : device.Reachable t) (hs : t.calls = []) (hw : guestWrites env n ws t = .ok t') :
    device.Reachable t' ∧ t'.calls = [] := by
  induction ws generalizing t with
  | nil =>
    cases hw
    exact ⟨h, hs⟩
  | cons w ws ih =>
    obtain ⟨x, hx, hw⟩ := bind_ok hw
    obtain ⟨y, hy, hw⟩ := bind_ok hw
    split at hw
    · rename_i hrest
      have hreach : device.Reachable x := .step h ⟨_, .write env w.1 w.2 (hv w List.mem_cons_self) hs hx⟩
      exact ih (fun w hw => hv w (List.mem_cons_of_mem _ hw)) (runs_reachable hreach (runAll_runs hy)) hrest hw
    · cases hw

/-- An `add_txqs` command at `0x1000` for transmit queue 0, whose context at `0x2010` has length 4. -/
def addTxqsMem : ℕ → UInt8
  | 0x1001 => 0x04 | 0x1002 => 0x30 | 0x1003 => 0x0C | 0x1004 => 56 | 0x101D => 0x20 | 0x2021 => 0x02
  | _ => 0

def guestEnv : DeviceEnv :=
  ⟨addTxqsMem, fun _ _ => true, ⟨0, fun _ => 0⟩, ⟨fun _ => 0, 0, fun _ => 0⟩, ⟨fun _ => true⟩, ⟨0, 0, 0, fun _ => 0⟩⟩

/-- The tail of an admin queue with one command is written, and every call it causes runs. -/
def addTxqsRun : Except Fault (Device × Device × Device) := do
  let d ← guestWrites guestEnv 300 [(0x2C0000, 1), (0x080000, 0x1000), (0x080200, 0x80000004)] zeroed
  let d' ← d.regWrite guestEnv 0x080400 1
  let t ← runAll guestEnv 300 d'
  .ok (d, d', t)

theorem addTxqsRun_eq : addTxqsRun.toOption.map (fun r => (r.2.2.calls, (r.1.txqs 0).q.activeCnt,
    (r.2.2.txqs 0).q.activeCnt)) = some ([], 0, 1) := by
  decide +kernel

theorem addTxqsRun_steps : ∃ d d' t, device.Reachable d ∧ d.calls = [] ∧ d.regWrite guestEnv 0x080400 1 = .ok d' ∧
    Runs d' t ∧ t.calls = [] ∧ (d.txqs 0).q.activeCnt = 0 ∧ (t.txqs 0).q.activeCnt = 1 := by
  have h := addTxqsRun_eq
  cases hr : addTxqsRun with
  | error f =>
    rw [hr] at h
    cases h
  | ok r =>
    rw [hr] at h
    simp only [Except.toOption, Option.map_some, Option.some.injEq, Prod.mk.injEq] at h
    obtain ⟨h1, h2, h3⟩ := h
    obtain ⟨d, hd, hr⟩ := bind_ok hr
    obtain ⟨d', hd', hr⟩ := bind_ok hr
    obtain ⟨t, ht, hr⟩ := bind_ok hr
    cases hr
    obtain ⟨hreach, hrest⟩ := guestWrites_reachable (by decide) (.start zeroed_fresh) rfl hd
    exact ⟨d, d', t, hreach, hrest, hd', runAll_runs ht, h1, h2, h3⟩

theorem doorbell_routed_atqt :
    ∃ d d' t, device.Reachable d ∧ d.regWrite guestEnv 0x080400 1 = .ok d' ∧ Runs d' t ∧ t.calls = [] ∧
      Doorbell.atqt.Sees d d' 1 ∧ Doorbell.atqt.Settled d' t := by
  obtain ⟨d, d', t, hreach, hs, hw, hruns, ht, -, -⟩ := addTxqsRun_steps
  obtain ⟨hsees, hrun⟩ := doorbell_routed d hreach hs .atqt trivial 1 guestEnv d' hw
  exact ⟨d, d', t, hreach, hw, hruns, ht, hsees, (hrun t hruns).2 ht⟩

theorem mbxAtqlen_write : (zeroed.regWrite guestEnv 0x22E200 0x80000004).toOption.map (fun d =>
    (d.regs.reg .pfMbxAtqlen, d.mbx.enabled, d.calls)) = some (0x80000004, false, [.atq]) := by
  decide +kernel

/-- Writing the tail of the admin queue makes transmit queue 0 fetch, and writing the length of the
mailbox queue is not seen by it. -/
theorem doorbell_crosstalk :
    (∃ d d' t, device.Reachable d ∧ d.calls = [] ∧ d.regWrite guestEnv 0x080400 1 = .ok d' ∧ Runs d' t ∧
      (d.txqs 0).q.activeCnt = 0 ∧ (t.txqs 0).q.activeCnt = 1) ∧
    ∃ d d', device.Reachable d ∧ d.calls = [] ∧ d.regWrite guestEnv 0x22E200 0x80000004 = .ok d' ∧
      d'.regs.reg .pfMbxAtqlen = 0x80000004 ∧ ∀ t, Runs d' t → t.mbx.enabled = false := by
  constructor
  · obtain ⟨d, d', t, hreach, hs, hw, hruns, -, h0, h1⟩ := addTxqsRun_steps
    exact ⟨d, d', t, hreach, hs, hw, hruns, h0, h1⟩
  · have h := mbxAtqlen_write
    cases hw : zeroed.regWrite guestEnv 0x22E200 0x80000004 with
    | error f =>
      rw [hw] at h
      cases h
    | ok d' =>
      rw [hw] at h
      simp only [Except.toOption, Option.map_some, Option.some.injEq, Prod.mk.injEq] at h
      obtain ⟨h1, h2, h3⟩ := h
      have hreach : device.Reachable zeroed := .start zeroed_fresh
      have hreach' : device.Reachable d' := .step hreach ⟨_, .write guestEnv 0x22E200 0x80000004 (by decide) rfl hw⟩
      have hw0 : Within (· = .atq) d' d' := by
        refine ⟨.refl _ d', fun x hx => ?_, [], (List.append_nil _).symm⟩
        rw [h3, List.mem_singleton] at hx
        rw [hx]
        exact .inl rfl
      refine ⟨zeroed, d', hreach, rfl, hw, h1, fun t hruns => ?_⟩
      obtain ⟨hwithin, -, -⟩ := runs_within hw0 (Tidy.reachable hreach') hruns
      rw [hwithin.only.mbx, h2]
      rintro (h | ⟨-, i, -, h⟩)
      · cases h
      · cases h

end Vmux.DoorbellRouting
