import Vmux.DescriptorTable
import Vmux.Transitions
import Mathlib.Data.List.Perm.Subperm

namespace Vmux.InterruptForwarding

open DescriptorTable Transitions Relation

def pciMsixMax : ℕ := 2048

def icMax : ℕ := pciMsixMax + 4

/-- Whether the configuration space has the size of a PCIe device, and how many interrupts VFIO reports. -/
structure PciDevice where
  pcie : Bool
  intx : ℕ
  msix : ℕ
deriving DecidableEq, Repr

/-- The descriptors of a consumer. Nothing assigns `irqfd_msi`, nor `irqfd_intx` when MSI-X is used. -/
structure VfioConsumer where
  container : ℕ
  group : ℕ
  device : ℕ
  useMsix : Bool
  irqfds : List ℕ
  irqfdIntx : ℕ
  irqfdMsi : ℕ
  irqfdErr : ℕ
  irqfdReq : ℕ
deriving DecidableEq, Repr

/-- `VfioConsumer::init`; `c` is the object before it. The file that it reads the size from is closed again. -/
def VfioConsumer.init (c : VfioConsumer) (p : PciDevice) (used : Finset ℕ) : VfioConsumer × Finset ℕ :=
  let (container, used) := descriptor used
  let (group, used) := descriptor used
  let (device, used) := descriptor used
  ({ c with container, group, device, useMsix := p.pcie }, used)

def VfioConsumer.initLegacyIrqs (c : VfioConsumer) (p : PciDevice) (used : Finset ℕ) :
    Option (VfioConsumer × Finset ℕ) :=
  if c.useMsix then
    let (irqfdErr, used) := descriptor used
    let (irqfdReq, used) := descriptor used
    some ({ c with irqfdErr, irqfdReq }, used)
  else if p.intx ≠ 1 then none
  else
    let (irqfdIntx, used) := descriptor used
    let (irqfdErr, used) := descriptor used
    let (irqfdReq, used) := descriptor used
    some ({ c with irqfdIntx, irqfdErr, irqfdReq }, used)

def VfioConsumer.initMsix (c : VfioConsumer) (p : PciDevice) (used : Finset ℕ) : Option (VfioConsumer × Finset ℕ) :=
  if !c.useMsix then some (c, used)
  else if p.msix = 0 then none
  else
    let (irqfds, used) := allocate p.msix used
    some ({ c with irqfds }, used)

/-- What the loop over `pciAddresses` does for one device; `c` is the new object. -/
def VfioConsumer.create (c : VfioConsumer) (p : PciDevice) (used : Finset ℕ) : Option (VfioConsumer × Finset ℕ) :=
  let (c, used) := c.init p used
  (c.initLegacyIrqs p used).bind fun (c, used) => c.initMsix p used

/-- What the command line says about a VM: its device, unless that is `none`, and whether the mode is
`passthrough`. `intx` and `msi` are what happens to be where its consumer is made. -/
structure Vm where
  pci : Option PciDevice
  passthrough : Bool
  intx : ℕ
  msi : ℕ
deriving DecidableEq, Repr

def Vm.object (vm : Vm) : VfioConsumer := ⟨0, 0, 0, true, [], vm.intx, vm.msi, 0, 0⟩

def createConsumers : List Vm → Finset ℕ → Option (List (Option VfioConsumer) × Finset ℕ)
  | [], used => some ([], used)
  | vm :: vms, used =>
    match vm.pci with
    | none => (createConsumers vms used).map fun (cs, used) => (none :: cs, used)
    | some p =>
      (vm.object.create p used).bind fun (c, used) =>
        (createConsumers vms used).map fun (cs, used) => (some c :: cs, used)

inductive Callback
  | msix
  | msi
  | intx
  | err
  | req
deriving DecidableEq, Repr

/-- `ctx` is the server whose interrupts the callback triggers. -/
structure EpollCallback where
  fd : ℕ
  ctx : ℕ
  callback : Callback
deriving DecidableEq, Repr

/-- `EPOLL_CTL_ADD` fails for a descriptor that is there already, which the callers do not look at. -/
def epollAdd (interest : List EpollCallback) (e : EpollCallback) : List EpollCallback :=
  if interest.any fun e' => e'.fd == e.fd then interest else interest ++ [e]

def addMsixPollfds (ctx : ℕ) (eventfds : List ℕ) : List EpollCallback := eventfds.map (⟨·, ctx, .msix⟩)

def addLegacyIrqPollfds (ctx intx msi err req : ℕ) : List EpollCallback :=
  (if intx ≠ 0 then [⟨intx, ctx, .intx⟩] else []) ++ (if msi ≠ 0 then [⟨msi, ctx, .msi⟩] else []) ++
    [⟨err, ctx, .err⟩, ⟨req, ctx, .req⟩]

def pollfds (ctx : ℕ) (c : VfioConsumer) : List EpollCallback :=
  if c.useMsix then addMsixPollfds ctx c.irqfds
  else addLegacyIrqPollfds ctx c.irqfdIntx c.irqfdMsi c.irqfdErr c.irqfdReq

/-- `PassthroughDevice::setup_vfu`. The result is `none` where `ic` overflows, and where it is full. -/
def setupVfu (ctx : ℕ) (c : VfioConsumer) (interest : List EpollCallback) : Option (List EpollCallback) :=
  let ic := pollfds ctx c
  if icMax ≤ ic.length then none else some (ic.foldl epollAdd interest)

/-- The servers from the one with number `ctx` on. -/
def setupServers : ℕ → List (Vm × Option VfioConsumer) → List EpollCallback → Option (List EpollCallback)
  | _, [], interest => some interest
  | ctx, (_, none) :: rest, interest => setupServers (ctx + 1) rest interest
  | ctx, (vm, some c) :: rest, interest =>
    if vm.passthrough then (setupVfu ctx c interest).bind (setupServers (ctx + 1) rest)
    else setupServers (ctx + 1) rest interest

/-- `others` is the number of entries that drivers and policies add to the interest list. -/
structure Setup where
  consumers : List (Option VfioConsumer)
  interest : List EpollCallback
  others : ℕ
deriving DecidableEq, Repr

/-- `_main` up to its loop: the descriptor of epoll comes first, those of the network backends next. -/
def setup (vms : List Vm) (used backends : Finset ℕ) (others : ℕ) : Option Setup :=
  let used := (descriptor used).2 ∪ backends
  (createConsumers vms used).bind fun (consumers, _) =>
    (setupServers 0 (vms.zip consumers) []).map fun interest => ⟨consumers, interest, others⟩

inductive Source
  | msix (vector : ℕ)
  | intx
  | err
  | req
deriving DecidableEq, Repr

/-- The eventfd that `VFIO_DEVICE_SET_IRQS` ties to an interrupt of the device. -/
def VfioConsumer.eventfd (c : VfioConsumer) : Source → Option ℕ
  | .msix k => c.irqfds[k]?
  | .intx => if c.useMsix then none else some c.irqfdIntx
  | .err => some c.irqfdErr
  | .req => some c.irqfdReq

/-- `signalled` are the eventfds that poll as readable, which no code reads. `raised` and `triggered` record what
the devices raised and the calls of `vfu_irq_trigger`, and `passes` counts the calls of `epoll_wait`. -/
structure State where
  signalled : Finset ℕ
  raised : List (ℕ × Source)
  triggered : List (ℕ × ℕ)
  passes : ℕ
  died : Bool
deriving DecidableEq

/-- The loop over `events`; `answer` tells whether `vfu_irq_trigger` succeeds. -/
def dispatch (answer : ℕ → ℕ → Bool) (s : State) : List EpollCallback → State
  | [] => s
  | e :: events =>
    if s.died then s
    else
      match e.callback with
      | .msix =>
        dispatch answer { s with triggered := s.triggered ++ [(e.ctx, e.fd)], died := !answer e.ctx e.fd } events
      | _ => dispatch answer s events

def maxEvents : ℕ := 1024

def Setup.ready (p : Setup) (s : State) : List EpollCallback :=
  p.interest.filter fun e => decide (e.fd ∈ s.signalled)

/-- What `epoll_wait` may return, less the entries of others. -/
structure Setup.Polled (p : Setup) (s : State) (events : List EpollCallback) : Prop where
  nodup : events.Nodup
  ready : ∀ e ∈ events, e ∈ p.ready s
  length : min (maxEvents - p.others) (p.ready s).length ≤ events.length

variable (p : Setup) (limit : ℕ → ℕ)

/-- `vfu_irq_trigger` refuses the numbers from `limit` on. -/
inductive Step (s : State) : State → Prop
  | raise (i : ℕ) (c : VfioConsumer) (src : Source) (fd : ℕ) (hc : p.consumers[i]? = some (some c))
      (hfd : c.eventfd src = some fd) :
      Step s { s with signalled := insert fd s.signalled, raised := s.raised ++ [(i, src)] }
  | pass (answer : ℕ → ℕ → Bool) (events : List EpollCallback) (alive : s.died = false) (he : p.Polled s events)
      (ha : ∀ i n, answer i n = true → n < limit i) :
      Step s (dispatch answer { s with passes := s.passes + 1 } events)

def forwarding : Machine State where
  start s := s = ⟨∅, [], [], 0, false⟩
  step := Step p limit

section Descriptors

variable {c c' : VfioConsumer} {used used' : Finset ℕ} {cs : List (Option VfioConsumer)}

def VfioConsumer.descriptors (c : VfioConsumer) : List ℕ :=
  [c.container, c.group, c.device] ++ (if c.useMsix then [] else [c.irqfdIntx]) ++ [c.irqfdErr, c.irqfdReq] ++ c.irqfds

def VfioConsumer.place (c : VfioConsumer) : Source → ℕ
  | .intx => 3
  | .err => if c.useMsix then 3 else 4
  | .req => if c.useMsix then 4 else 5
  | .msix k => k + if c.useMsix then 5 else 6

def allDescriptors (cs : List (Option VfioConsumer)) : List ℕ :=
  cs.flatMap fun c => c.elim [] VfioConsumer.descriptors

theorem create_descriptors {pci : PciDevice} (hc : c.irqfds = []) (h : c.create pci used = some (c', used')) :
    ∃ n, allocate n used = (c'.descriptors, used') := by
  unfold VfioConsumer.create VfioConsumer.init VfioConsumer.initLegacyIrqs at h
  cases hp : pci.pcie with
  | true =>
    simp only [hp, ↓reduceIte, Option.bind_some, VfioConsumer.initMsix, Bool.not_true, Bool.false_eq_true] at h
    split at h
    · cases h
    · obtain ⟨rfl, rfl⟩ := Prod.mk.inj (Option.some.inj h)
      refine ⟨5 + pci.msix, ?_⟩
      rw [allocate_add]
      rfl
  | false =>
    simp only [hp, Bool.false_eq_true, ↓reduceIte] at h
    split at h
    · cases h
    · obtain ⟨rfl, rfl⟩ := Prod.mk.inj (Option.some.inj h)
      refine ⟨6, ?_⟩
      simp only [VfioConsumer.descriptors, hc]
      rfl

theorem createConsumers_descriptors {vms : List Vm} (h : createConsumers vms used = some (cs, used')) :
    ∃ n, allocate n used = (allDescriptors cs, used') := by
  induction vms generalizing used cs with
  | nil =>
    obtain ⟨rfl, rfl⟩ := Prod.mk.inj (Option.some.inj h)
    exact ⟨0, rfl⟩
  | cons vm vms ih =>
    rw [createConsumers] at h
    cases hv : vm.pci with
    | none =>
      simp only [hv, Option.map_eq_some_iff] at h
      obtain ⟨⟨rest, last⟩, hr, he⟩ := h
      obtain ⟨rfl, rfl⟩ := Prod.mk.inj he
      obtain ⟨n, hn⟩ := ih hr
      exact ⟨n, hn⟩
    | some pci =>
      simp only [hv, Option.bind_eq_some_iff, Option.map_eq_some_iff] at h
      obtain ⟨⟨c, between⟩, hc, ⟨rest, last⟩, hr, he⟩ := h
      obtain ⟨rfl, rfl⟩ := Prod.mk.inj he
      obtain ⟨m, hm⟩ := create_descriptors rfl hc
      obtain ⟨n, hn⟩ := ih hr
      refine ⟨m + n, ?_⟩
      rw [allocate_add, hm, hn]
      rfl

theorem eventfd_place {src : Source} {fd : ℕ} (h : c.eventfd src = some fd) :
    c.descriptors[c.place src]? = some fd := by
  cases hm : c.useMsix with
  | false => cases src <;> simpa [VfioConsumer.eventfd, VfioConsumer.descriptors, VfioConsumer.place, hm] using h
  | true =>
    cases src with
    | intx => simp [VfioConsumer.eventfd, hm] at h
    | msix | err | req => simpa [VfioConsumer.eventfd, VfioConsumer.descriptors, VfioConsumer.place, hm] using h

theorem place_inj {a b : Source} {n : ℕ} (ha : c.eventfd a = some n) (hb : c.eventfd b = some n)
    (h : c.place a = c.place b) : a = b := by
  cases hm : c.useMsix <;> cases a <;> cases b
  all_goals
    simp only [VfioConsumer.eventfd, VfioConsumer.place, hm, reduceCtorEq, Bool.false_eq_true, ↓reduceIte]
      at ha hb h ⊢
  all_goals first
    | omega
    | congr 1
      omega

theorem eventfd_inj (hn : (allDescriptors cs).Nodup) {i j fd : ℕ} {a b : Source} (hi : cs[i]? = some (some c))
    (hj : cs[j]? = some (some c')) (ha : c.eventfd a = some fd) (hb : c'.eventfd b = some fd) : i = j ∧ a = b := by
  obtain ⟨heach, hapart⟩ := List.nodup_flatMap.mp hn
  have hpa := eventfd_place ha
  have hpb := eventfd_place hb
  have hij : i = j := by
    by_contra hne
    obtain ⟨hi', hic⟩ := List.getElem?_eq_some_iff.mp hi
    obtain ⟨hj', hjc⟩ := List.getElem?_eq_some_iff.mp hj
    rw [List.pairwise_iff_getElem] at hapart
    rcases Nat.lt_or_gt_of_ne hne with hlt | hlt
    · have hd := hapart i j hi' hj' hlt
      simp only [Function.onFun, hic, hjc] at hd
      exact hd (List.mem_of_getElem? hpa) (List.mem_of_getElem? hpb)
    · have hd := hapart j i hj' hi' hlt
      simp only [Function.onFun, hic, hjc] at hd
      exact hd (List.mem_of_getElem? hpb) (List.mem_of_getElem? hpa)
  subst hij
  obtain rfl := Option.some.inj (Option.some.inj (hi.symm.trans hj))
  refine ⟨rfl, place_inj ha hb ?_⟩
  have hc := heach _ (List.mem_of_getElem? hi)
  exact (List.getElem?_inj (List.getElem?_eq_some_iff.mp hpa).1 hc).mp (hpa.trans hpb.symm)

theorem getElem?_allDescriptors {i m y : ℕ} (hi : cs[i]? = some (some c)) (hm : c.descriptors[m]? = some y) :
    ∃ o, (allDescriptors cs)[o + m]? = some y := by
  induction cs generalizing i with
  | nil => cases hi
  | cons x cs ih =>
    cases i with
    | zero =>
      obtain rfl := Option.some.inj hi
      refine ⟨0, ?_⟩
      rw [Nat.zero_add]
      exact List.getElem?_append_left (List.getElem?_eq_some_iff.mp hm).1 |>.trans hm
    | succ i =>
      obtain ⟨o, ho⟩ := ih hi
      refine ⟨(x.elim [] VfioConsumer.descriptors).length + o, ?_⟩
      have hcons : allDescriptors (x :: cs) = x.elim [] VfioConsumer.descriptors ++ allDescriptors cs := rfl
      rw [hcons, Nat.add_assoc, List.getElem?_append_right (Nat.le_add_right _ _), Nat.add_sub_cancel_left]
      exact ho

end Descriptors

section Interest

variable {l as : List EpollCallback} {e a : EpollCallback} {ctx : ℕ} {c : VfioConsumer}

theorem epollAdd_cases (l : List EpollCallback) (a : EpollCallback) :
    (∃ e ∈ l, e.fd = a.fd) ∧ epollAdd l a = l ∨ (∀ e ∈ l, e.fd ≠ a.fd) ∧ epollAdd l a = l ++ [a] := by
  unfold epollAdd
  split
  next h =>
    obtain ⟨e, he, hfd⟩ := List.any_eq_true.mp h
    exact .inl ⟨⟨e, he, beq_iff_eq.mp hfd⟩, rfl⟩
  next h =>
    refine .inr ⟨fun e he hfd => h ?_, rfl⟩
    exact List.any_eq_true.mpr ⟨e, he, beq_iff_eq.mpr hfd⟩

theorem mem_of_epollAdd (h : e ∈ as.foldl epollAdd l) : e ∈ l ∨ e ∈ as := by
  induction as generalizing l with
  | nil => exact .inl h
  | cons a as ih =>
    rcases ih h with hl | has
    · rcases epollAdd_cases l a with ⟨-, he⟩ | ⟨-, he⟩
      · exact .inl (he ▸ hl)
      · rw [he, List.mem_append, List.mem_singleton] at hl
        rcases hl with hl | rfl
        · exact .inl hl
        · exact .inr List.mem_cons_self
    · exact .inr (List.mem_cons_of_mem a has)

theorem mem_epollAdd (h : e ∈ l) : e ∈ as.foldl epollAdd l := by
  induction as generalizing l with
  | nil => exact h
  | cons a as ih =>
    refine ih ?_
    rcases epollAdd_cases l a with ⟨-, he⟩ | ⟨-, he⟩
    · rw [he]
      exact h
    · rw [he]
      exact List.mem_append_left [a] h

theorem registered (h : a ∈ as) : ∃ e ∈ as.foldl epollAdd l, e.fd = a.fd := by
  induction as generalizing l with
  | nil => cases h
  | cons b as ih =>
    rcases List.mem_cons.mp h with rfl | h
    · rw [List.foldl_cons]
      rcases epollAdd_cases l a with ⟨⟨e, hl, hfd⟩, he⟩ | ⟨-, he⟩
      · exact ⟨e, mem_epollAdd (by rw [he]; exact hl), hfd⟩
      · exact ⟨a, mem_epollAdd (by rw [he]; exact List.mem_append_right l (List.mem_singleton_self a)), rfl⟩
    · exact ih h

theorem nodup_epollAdd (h : (l.map EpollCallback.fd).Nodup) : ((as.foldl epollAdd l).map EpollCallback.fd).Nodup := by
  induction as generalizing l with
  | nil => exact h
  | cons a as ih =>
    refine ih ?_
    rcases epollAdd_cases l a with ⟨-, he⟩ | ⟨hnew, he⟩
    · rw [he]
      exact h
    · rw [he, List.map_append, List.map_singleton, List.nodup_append]
      refine ⟨h, List.nodup_singleton _, ?_⟩
      intro x hx y hy
      obtain ⟨e, hel, rfl⟩ := List.mem_map.mp hx
      rw [List.mem_singleton.mp hy]
      exact hnew e hel

/-- The calls of `epoll_ctl` of the servers from number `ctx` on. -/
def registrations : ℕ → List (Vm × Option VfioConsumer) → List EpollCallback
  | _, [] => []
  | ctx, (_, none) :: rest => registrations (ctx + 1) rest
  | ctx, (vm, some c) :: rest => (if vm.passthrough then pollfds ctx c else []) ++ registrations (ctx + 1) rest

theorem setupServers_registrations {rest : List (Vm × Option VfioConsumer)}
    (h : setupServers ctx rest l = some as) : as = (registrations ctx rest).foldl epollAdd l := by
  induction rest generalizing ctx l with
  | nil => exact (Option.some.inj h).symm
  | cons x rest ih =>
    obtain ⟨vm, c⟩ := x
    cases c with
    | none => exact ih h
    | some c =>
      rw [setupServers] at h
      rw [registrations]
      cases hp : vm.passthrough with
      | false =>
        rw [if_neg (by simp [hp])] at h
        exact ih h
      | true =>
        rw [if_pos hp, Option.bind_eq_some_iff] at h
        obtain ⟨m, hm, hr⟩ := h
        simp only [setupVfu] at hm
        split at hm
        · cases hm
        · obtain rfl := Option.some.inj hm
          rw [if_pos rfl, List.foldl_append]
          exact ih hr

theorem mem_registrations {rest : List (Vm × Option VfioConsumer)} :
    a ∈ registrations ctx rest ↔
      ∃ j vm c, rest[j]? = some (vm, some c) ∧ vm.passthrough = true ∧ a ∈ pollfds (ctx + j) c := by
  induction rest generalizing ctx with
  | nil => simp [registrations]
  | cons x rest ih =>
    have hlater : a ∈ registrations (ctx + 1) rest ↔ ∃ j vm c, (x :: rest)[j + 1]? = some (vm, some c) ∧
        vm.passthrough = true ∧ a ∈ pollfds (ctx + (j + 1)) c := by
      rw [ih]
      simp only [List.getElem?_cons_succ, Nat.add_assoc, Nat.add_comm 1]
    rw [← Nat.or_exists_add_one]
    obtain ⟨vm, c⟩ := x
    cases c with
    | none => simp [registrations, hlater]
    | some c =>
      rw [registrations, List.mem_append, hlater]
      refine or_congr ?_ Iff.rfl
      constructor
      · intro h
        cases hp : vm.passthrough with
        | false => simp [hp] at h
        | true => exact ⟨vm, c, rfl, hp, by simpa [hp] using h⟩
      · rintro ⟨vm', c', he, hp, h⟩
        obtain ⟨rfl, hc⟩ := Prod.mk.inj (Option.some.inj he)
        obtain rfl := Option.some.inj hc
        rw [if_pos hp]
        exact h

theorem pollfds_ctx (h : e ∈ pollfds ctx c) : e.ctx = ctx := by
  unfold pollfds at h
  split at h
  · obtain ⟨fd, -, rfl⟩ := List.mem_map.mp h
    rfl
  · simp only [addLegacyIrqPollfds, List.mem_append, List.mem_ite_nil_right, List.mem_cons, List.not_mem_nil] at h
    rcases h with (⟨-, rfl | h⟩ | ⟨-, rfl | h⟩) | rfl | rfl | h <;> first | rfl | cases h

theorem mem_pollfds_msix (h : e ∈ pollfds ctx c) (hcb : e.callback = .msix ∨ c.useMsix = true) :
    c.useMsix = true ∧ e.fd ∈ c.irqfds ∧ e.callback = .msix := by
  unfold pollfds at h
  split at h
  next hm =>
    obtain ⟨fd, hfd, rfl⟩ := List.mem_map.mp h
    exact ⟨hm, hfd, rfl⟩
  next hm =>
    rcases hcb with hcb | hcb
    · simp only [addLegacyIrqPollfds, List.mem_append, List.mem_ite_nil_right, List.mem_cons, List.not_mem_nil] at h
      rcases h with (⟨-, rfl | h⟩ | ⟨-, rfl | h⟩) | rfl | rfl | h
      all_goals first | cases h | cases hcb
    · exact absurd hcb hm

end Interest

/-- What every set-up guarantees: who owns an eventfd, how large it is, and that vMux waits for it. -/
structure Setup.Sound (p : Setup) (vms : List Vm) : Prop where
  owner : ∀ (i j : ℕ) (c c' : VfioConsumer) (a b : Source) (fd : ℕ), p.consumers[i]? = some (some c) →
    p.consumers[j]? = some (some c') → c.eventfd a = some fd → c'.eventfd b = some fd → i = j ∧ a = b
  later : ∀ (i : ℕ) (c : VfioConsumer) (k n : ℕ), p.consumers[i]? = some (some c) → c.irqfds[k]? = some n → k + 6 ≤ n
  nodup : (p.interest.map EpollCallback.fd).Nodup
  entry : ∀ e ∈ p.interest, ∃ c, p.consumers[e.ctx]? = some (some c) ∧ e ∈ pollfds e.ctx c
  served : ∀ i vm c, vms[i]? = some vm → p.consumers[i]? = some (some c) → vm.passthrough = true →
    ∀ a ∈ pollfds i c, ∃ e ∈ p.interest, e.fd = a.fd

variable {p : Setup} {limit : ℕ → ℕ} {s t : State} {vms : List Vm} {used backends : Finset ℕ} {others : ℕ}

theorem setup_sound (h : setup vms used backends others = some p) : p.Sound vms := by
  rw [setup, Option.bind_eq_some_iff] at h
  obtain ⟨⟨cs, last⟩, hcs, hmap⟩ := h
  obtain ⟨interest, hint, rfl⟩ := Option.map_eq_some_iff.mp hmap
  obtain ⟨n, hn⟩ := createConsumers_descriptors hcs
  obtain rfl := setupServers_registrations hint
  have hnodup : (allDescriptors cs).Nodup := by
    have := allocate_nodup n ((descriptor used).2 ∪ backends)
    rwa [hn] at this
  have hzip (j : ℕ) (vm : Vm) (c : VfioConsumer) :
      (vms.zip cs)[j]? = some (vm, some c) ↔ vms[j]? = some vm ∧ cs[j]? = some (some c) :=
    List.getElem?_zip_eq_some
  refine ⟨?_, ?_, nodup_epollAdd List.nodup_nil, ?_, ?_⟩
  · intro i j c c' a b fd hi hj ha hb
    exact eventfd_inj hnodup hi hj ha hb
  · intro i c k m hi hk
    have hplace := eventfd_place (c := c) (show c.eventfd (.msix k) = some m from hk)
    obtain ⟨o, ho⟩ := getElem?_allDescriptors hi hplace
    have hfirst : Finset.range 1 ⊆ (descriptor used).2 ∪ backends :=
      (range_succ_subset (Finset.empty_subset used)).trans Finset.subset_union_left
    have hle := le_allocate (n := n) (k := o + c.place (.msix k)) hfirst (by rw [hn]; exact ho)
    simp only [VfioConsumer.place] at hle
    split at hle <;> omega
  · intro e he
    rcases mem_of_epollAdd he with he | he
    · cases he
    · obtain ⟨j, vm, c, hj, -, hep⟩ := mem_registrations.mp he
      rw [Nat.zero_add] at hep
      obtain rfl := pollfds_ctx hep
      exact ⟨c, ((hzip e.ctx vm c).mp hj).2, hep⟩
  · intro i vm c hv hc hp a ha
    refine registered (mem_registrations.mpr ⟨i, vm, c, (hzip i vm c).mpr ⟨hv, hc⟩, hp, ?_⟩)
    rwa [Nat.zero_add]

section Dispatch

variable {answer : ℕ → ℕ → Bool} {events : List EpollCallback}

theorem dispatch_frame (answer : ℕ → ℕ → Bool) (s : State) (events : List EpollCallback) :
    (dispatch answer s events).signalled = s.signalled ∧
    (dispatch answer s events).raised = s.raised ∧ (dispatch answer s events).passes = s.passes := by
  induction events generalizing s with
  | nil => exact ⟨rfl, rfl, rfl⟩
  | cons e events ih =>
    rw [dispatch]
    split
    · exact ⟨rfl, rfl, rfl⟩
    · split
      · exact ih _
      · exact ih _

theorem mem_dispatch {x : ℕ × ℕ} (h : x ∈ (dispatch answer s events).triggered) :
    x ∈ s.triggered ∨ ∃ e ∈ events, e.callback = .msix ∧ x = (e.ctx, e.fd) := by
  induction events generalizing s with
  | nil => exact .inl h
  | cons e events ih =>
    rw [dispatch] at h
    split at h
    · exact .inl h
    · split at h
      next hm =>
        rcases ih h with hs | ⟨e', he, hx⟩
        · rcases List.mem_append.mp hs with hs | hs
          · exact .inl hs
          · exact .inr ⟨e, List.mem_cons_self, hm, List.mem_singleton.mp hs⟩
        · exact .inr ⟨e', List.mem_cons_of_mem e he, hx⟩
      next =>
        rcases ih h with hs | ⟨e', he, hx⟩
        · exact .inl hs
        · exact .inr ⟨e', List.mem_cons_of_mem e he, hx⟩

theorem dispatch_died (h : s.died = true) : dispatch answer s events = s := by
  cases events with
  | nil => rfl
  | cons e events => rw [dispatch, if_pos h]

theorem dispatch_alive (h : (dispatch answer s events).died = false) :
    (dispatch answer s events).triggered =
        s.triggered ++ (events.filter fun e => e.callback = .msix).map (fun e => (e.ctx, e.fd)) ∧
      ∀ e ∈ events, e.callback = .msix → answer e.ctx e.fd = true := by
  induction events generalizing s with
  | nil => exact ⟨(List.append_nil _).symm, fun e he => by cases he⟩
  | cons e events ih =>
    rw [dispatch] at h ⊢
    split at h
    next hd => simp [hd] at h
    next hd =>
      rw [if_neg hd]
      split at h
      next hm =>
        have hanswer : answer e.ctx e.fd = true := by
          by_contra hno
          rw [dispatch_died (by simp [hno])] at h
          simp [hno] at h
        obtain ⟨ht, ha⟩ := ih h
        refine ⟨?_, ?_⟩
        · simp only [hm, ht, List.filter_cons, decide_true, ↓reduceIte, List.map_cons, List.append_assoc,
            List.singleton_append]
        · intro e' he' hm'
          rcases List.mem_cons.mp he' with rfl | he'
          · exact hanswer
          · exact ha e' he' hm'
      next hm =>
        obtain ⟨ht, ha⟩ := ih h
        refine ⟨?_, ?_⟩
        · rw [ht, List.filter_cons_of_neg]
          simpa using hm
        · intro e' he' hm'
          rcases List.mem_cons.mp he' with rfl | he'
          · exact absurd hm' hm
          · exact ha e' he' hm'

end Dispatch

/-- No eventfd is ever read, so each that was signalled still is. -/
structure Inv (p : Setup) (s : State) : Prop where
  origin : ∀ fd ∈ s.signalled, ∃ i c src, (i, src) ∈ s.raised ∧ p.consumers[i]? = some (some c) ∧ c.eventfd src = some fd
  kept : ∀ i src c fd, (i, src) ∈ s.raised → p.consumers[i]? = some (some c) → c.eventfd src = some fd →
    fd ∈ s.signalled
  served : ∀ i n, (i, n) ∈ s.triggered →
    n ∈ s.signalled ∧ ∃ e ∈ p.interest, e.callback = .msix ∧ e.ctx = i ∧ e.fd = n

theorem Inv.step (hi : Inv p s) (h : Step p limit s t) : Inv p t := by
  cases h with
  | raise i c src fd hc hfd =>
    refine ⟨?_, ?_, ?_⟩
    · intro x hx
      rcases Finset.mem_insert.mp hx with rfl | hx
      · exact ⟨i, c, src, List.mem_append_right _ (List.mem_singleton_self _), hc, hfd⟩
      · obtain ⟨j, c', src', hr, hc', hfd'⟩ := hi.origin x hx
        exact ⟨j, c', src', List.mem_append_left _ hr, hc', hfd'⟩
    · intro j src' c' x hr hc' hfd'
      rcases List.mem_append.mp hr with hr | hr
      · exact Finset.mem_insert_of_mem (hi.kept j src' c' x hr hc' hfd')
      · obtain ⟨rfl, rfl⟩ := Prod.mk.inj (List.mem_singleton.mp hr)
        obtain rfl := Option.some.inj (Option.some.inj (hc.symm.trans hc'))
        obtain rfl := Option.some.inj (hfd.symm.trans hfd')
        exact Finset.mem_insert_self _ _
    · intro j n hn
      obtain ⟨hs, he⟩ := hi.served j n hn
      exact ⟨Finset.mem_insert_of_mem hs, he⟩
  | pass answer events alive he ha =>
    obtain ⟨hsig, hrai, -⟩ := dispatch_frame answer { s with passes := s.passes + 1 } events
    refine ⟨?_, ?_, ?_⟩
    · rw [hsig, hrai]
      exact hi.origin
    · rw [hsig, hrai]
      exact hi.kept
    · intro j n hn
      rw [hsig]
      rcases mem_dispatch hn with hn | ⟨e, hev, hm, hx⟩
      · exact hi.served j n hn
      · obtain ⟨rfl, rfl⟩ := Prod.mk.inj hx
        obtain ⟨hint, hs⟩ := List.mem_filter.mp (he.ready e hev)
        exact ⟨of_decide_eq_true hs, e, hint, hm, rfl, rfl⟩

theorem inv (h : (forwarding p limit).Reachable s) : Inv p s := by
  refine h.invariant ?_ fun _ _ => Inv.step
  rintro s rfl
  refine ⟨?_, ?_, ?_⟩
  · intro fd hfd
    cases hfd
  · intro i src c fd hr
    cases hr
  · intro i n hn
    cases hn

variable {i k n : ℕ} {vm : Vm} {c : VfioConsumer}

theorem trigger_origin (hp : p.Sound vms) (hi : Inv p s) (h : (i, n) ∈ s.triggered) :
    ∃ c k, p.consumers[i]? = some (some c) ∧ c.useMsix = true ∧ c.irqfds[k]? = some n ∧ (i, .msix k) ∈ s.raised := by
  obtain ⟨hs, e, hint, hm, rfl, rfl⟩ := hi.served i n h
  obtain ⟨c, hc, hep⟩ := hp.entry e hint
  obtain ⟨hx, hfd, -⟩ := mem_pollfds_msix hep (.inl hm)
  obtain ⟨k, hk⟩ := List.mem_iff_getElem?.mp hfd
  obtain ⟨j, c', src, hr, hc', hsrc⟩ := hi.origin e.fd hs
  obtain ⟨hj, hsk⟩ := hp.owner e.ctx j c c' (.msix k) src e.fd hc hc' hk hsrc
  rw [← hj, ← hsk] at hr
  exact ⟨c, k, hc, hx, hk, hr⟩

/-- vMux triggers for a VM only what the device of that VM raised, but it passes the descriptor on and not the
vector, and the descriptor is larger. -/
theorem vector_misnumbered (hp : setup vms used backends others = some p) (hr : (forwarding p limit).Reachable s)
    (h : (i, n) ∈ s.triggered) :
    ∃ c k, p.consumers[i]? = some (some c) ∧ c.useMsix = true ∧ c.irqfds[k]? = some n ∧
      (i, .msix k) ∈ s.raised ∧ k + 6 ≤ n := by
  have hsound := setup_sound hp
  obtain ⟨c, k, hc, hm, hk, hraised⟩ := trigger_origin hsound (inv hr) h
  exact ⟨c, k, hc, hm, hk, hraised, hsound.later i c k n hc hk⟩

def oneVm : List Vm := [⟨some ⟨true, 1, 12⟩, true, 0, 0⟩]

def oneSetup : Setup where
  consumers := [some ⟨4, 5, 6, true, [9, 10, 11, 12, 13, 14, 15, 16, 17, 18, 19, 20], 0, 0, 7, 8⟩]
  interest := [9, 10, 11, 12, 13, 14, 15, 16, 17, 18, 19, 20].map (⟨·, 0, .msix⟩)
  others := 1

theorem oneSetup_eq : setup oneVm {0, 1, 2} ∅ 1 = some oneSetup := by decide +kernel

def oneRaised : State := ⟨{10}, [(0, .msix 1)], [], 0, false⟩

def oneServed : State := ⟨{10}, [(0, .msix 1)], [(0, 10)], 1, false⟩

theorem oneRaised_reachable : (forwarding oneSetup fun _ => 12).Reachable oneRaised :=
  .step (.start rfl) (.raise 0 _ (.msix 1) 10 rfl rfl)

theorem oneServed_step : Step oneSetup (fun _ => 12) oneRaised oneServed :=
  .pass (fun _ n => decide (n < 12)) [⟨10, 0, .msix⟩] rfl ⟨by decide, by decide, by decide⟩
    fun _ _ h => of_decide_eq_true h

theorem vector_misnumbered_second : ∃ c k, oneSetup.consumers[0]? = some (some c) ∧ c.useMsix = true ∧
    c.irqfds[k]? = some 10 ∧ (0, .msix k) ∈ oneServed.raised ∧ k + 6 ≤ 10 :=
  vector_misnumbered oneSetup_eq (.step oneRaised_reachable oneServed_step) (by decide)

theorem Setup.Polled.all {events : List EpollCallback} {e : EpollCallback} (he : p.Polled s events)
    (hroom : p.interest.length + p.others ≤ maxEvents) (h : e ∈ p.ready s) : e ∈ events := by
  have hle : (p.ready s).length ≤ p.interest.length := List.length_filter_le _ _
  have hlen := he.length
  have hperm := (he.nodup.subperm he.ready).perm_of_length_le (by omega)
  exact hperm.symm.subset h

theorem count_served {events : List EpollCallback} {e : EpollCallback} (hp : p.Sound vms) (he : p.Polled s events)
    (h : e ∈ events) (hm : e.callback = .msix) :
    ((events.filter fun e => e.callback = .msix).map fun e => (e.ctx, e.fd)).count (e.ctx, e.fd) = 1 := by
  refine List.count_eq_one_of_mem ?_ ?_
  · refine List.Nodup.map_on ?_ (he.nodup.filter _)
    intro a ha b hb hab
    have hina := (List.mem_filter.mp (he.ready a (List.mem_filter.mp ha).1)).1
    have hinb := (List.mem_filter.mp (he.ready b (List.mem_filter.mp hb).1)).1
    exact List.inj_on_of_nodup_map hp.nodup hina hinb (Prod.mk.inj hab).2
  · exact List.mem_map.mpr ⟨e, List.mem_filter.mpr ⟨h, decide_eq_true hm⟩, rfl⟩

theorem vector_registered (hp : p.Sound vms) (hall : ∀ c, some c ∈ p.consumers → c.useMsix = true)
    (hv : vms[i]? = some vm) (hpass : vm.passthrough = true) (hc : p.consumers[i]? = some (some c))
    (hk : c.irqfds[k]? = some n) : ⟨n, i, .msix⟩ ∈ p.interest := by
  have hmem : ⟨n, i, .msix⟩ ∈ pollfds i c := by
    rw [pollfds, if_pos (hall c (List.mem_of_getElem? hc))]
    exact List.mem_map_of_mem (List.mem_of_getElem? hk)
  obtain ⟨⟨fd, ctx, cb⟩, hint, rfl⟩ := hp.served i vm c hv hc hpass _ hmem
  obtain ⟨c', hc', hep⟩ := hp.entry _ hint
  obtain ⟨-, hfd, rfl⟩ := mem_pollfds_msix hep (.inr (hall c' (List.mem_of_getElem? hc')))
  obtain ⟨k', hk'⟩ := List.mem_iff_getElem?.mp hfd
  obtain ⟨rfl, -⟩ := hp.owner ctx i c' c (.msix k') (.msix k) fd hc' hc hk' hk
  exact hint

theorem step_counts (hp : p.Sound vms) (hall : ∀ c, some c ∈ p.consumers → c.useMsix = true)
    (hroom : p.interest.length + p.others ≤ maxEvents) (hi : Inv p s) (hv : vms[i]? = some vm)
    (hpass : vm.passthrough = true) (hc : p.consumers[i]? = some (some c)) (hk : c.irqfds[k]? = some n) (hraised : (i, .msix k) ∈ s.raised)
    (h : Step p limit s t) (alive : t.died = false) :
    (i, .msix k) ∈ t.raised ∧ s.died = false ∧ s.passes ≤ t.passes ∧
      t.triggered.count (i, n) + s.passes = s.triggered.count (i, n) + t.passes ∧
        (limit i ≤ k + 6 → t.passes = s.passes) := by
  cases h with
  | raise j c' src fd hc' hfd =>
    exact ⟨List.mem_append_left _ hraised, alive, le_rfl, rfl, fun _ => rfl⟩
  | pass answer events halive he ha =>
    obtain ⟨-, hrai, hpas⟩ := dispatch_frame answer { s with passes := s.passes + 1 } events
    obtain ⟨htrig, hanswer⟩ := dispatch_alive alive
    have hint := vector_registered hp hall hv hpass hc hk
    have hsig : n ∈ s.signalled := hi.kept i (.msix k) c n hraised hc hk
    have hev := he.all hroom (List.mem_filter.mpr ⟨hint, decide_eq_true hsig⟩)
    have hone := count_served hp he hev rfl
    have hlimit := ha i n (hanswer _ hev rfl)
    refine ⟨?_, halive, ?_, ?_, ?_⟩
    · rw [hrai]
      exact hraised
    · rw [hpas]
      exact Nat.le_succ _
    · rw [htrig, hpas, List.count_append, hone]
      change s.triggered.count (i, n) + 1 + s.passes = s.triggered.count (i, n) + (s.passes + 1)
      omega
    · intro hl
      have hlater := hp.later i c k n hc hk
      omega

/-- Once a device has raised a vector, vMux triggers the interrupt in each pass from then on. It does not survive a
pass if the descriptor is no number of an interrupt, as for the last six vectors. -/
theorem vector_retriggered (hp : setup vms used backends others = some p)
    (hall : ∀ c, some c ∈ p.consumers → c.useMsix = true) (hroom : p.interest.length + p.others ≤ maxEvents)
    (hr : (forwarding p limit).Reachable s) (hv : vms[i]? = some vm) (hpass : vm.passthrough = true)
    (hc : p.consumers[i]? = some (some c)) (hk : c.irqfds[k]? = some n) (hraised : (i, .msix k) ∈ s.raised)
    (run : ReflTransGen (Step p limit) s t) (alive : t.died = false) :
    t.triggered.count (i, n) = s.triggered.count (i, n) + (t.passes - s.passes) ∧
      (limit i ≤ k + 6 → t.passes = s.passes) := by
  have hsound := setup_sound hp
  have main : (i, .msix k) ∈ t.raised ∧ s.passes ≤ t.passes ∧
      t.triggered.count (i, n) + s.passes = s.triggered.count (i, n) + t.passes ∧
        (limit i ≤ k + 6 → t.passes = s.passes) := by
    induction run with
    | refl => exact ⟨hraised, le_rfl, rfl, fun _ => rfl⟩
    | @tail u t hsu hut ih =>
      have hu : u.died = false := by
        cases hut with
        | raise => exact alive
        | pass _ _ hu => exact hu
      obtain ⟨hur, hule, huc, hul⟩ := ih hu
      obtain ⟨htr, -, htle, htc, htl⟩ :=
        step_counts hsound hall hroom (inv (hr.steps hsu)) hv hpass hc hk hur hut alive
      exact ⟨htr, hule.trans htle, by omega, fun hl => (htl hl).trans (hul hl)⟩
  obtain ⟨-, hle, hcount, hlast⟩ := main
  exact ⟨by omega, hlast⟩

theorem oneSetup_msix (c : VfioConsumer) (hc : some c ∈ oneSetup.consumers) : c.useMsix = true := by
  obtain rfl := Option.some.inj (List.mem_singleton.mp hc)
  rfl

theorem vector_retriggered_second : oneServed.triggered.count (0, 10) = oneRaised.triggered.count (0, 10) + (1 - 0) ∧
    (12 ≤ 1 + 6 → oneServed.passes = oneRaised.passes) :=
  vector_retriggered oneSetup_eq oneSetup_msix (by decide) oneRaised_reachable (i := 0) (k := 1) rfl rfl rfl rfl
    (by decide) (.single oneServed_step) rfl

end Vmux.InterruptForwarding
