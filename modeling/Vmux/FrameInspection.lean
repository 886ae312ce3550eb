import Vmux.Nic

namespace Vmux.FrameInspection

open Bytes Switch SwitchRules LanRx Nic

/-- What the receive path indexes: the frame, and the table of receive queues. -/
inductive Access
  | byte (i : ℕ)
  | queue (i : ℕ)
deriving DecidableEq, Repr

def Access.InBounds (n : ℕ) : Access → Prop
  | byte i => i < n
  | queue i => i < Registers.numQueues

instance (n : ℕ) : DecidablePred (Access.InBounds n)
  | .byte _ => inferInstanceAs (Decidable (_ < _))
  | .queue _ => inferInstanceAs (Decidable (_ < _))

/-- The inner loop of `select_queue`, which ends at the first byte that differs: the offsets it
reads, and whether the rule matches. -/
def matchLoop (byte : ℕ → UInt8) (rule : Rule) : List ℕ → List ℕ × Bool
  | [] => ([], true)
  | i :: is =>
    if recipe1.getD i 0 &&& byte i = rule.bytes.getD i 0 then
      let m := matchLoop byte rule is
      (i :: m.1, m.2)
    else ([i], false)

def ruleReads (byte : ℕ → UInt8) : List Rule → List ℕ
  | [] => []
  | rule :: rules =>
    let m := matchLoop byte rule (List.range recipe1.length)
    m.1 ++ if m.2 then [] else ruleReads byte rules

/-- `select_queue` loads the destination address with a 64-bit read. -/
def selectReads (env : RxEnv) (rules : List Rule) (data : List UInt8) : List ℕ :=
  if data.length < 14 then [] else List.range 8 ++ ruleReads (fun i => data.getD i (env.beyond i)) rules

/-- What `ptp_should_sample_rx` reads of the frame. -/
def ptpReads (env : RxEnv) (data : List UInt8) : List ℕ :=
  if ptpGltsynEna (env.gltsynEna 0 % 2) = 0 ∨ ptpGltsynEna (env.gltsynEna 1 % 2) = 0 then []
  else [12, 13] ++
    if be16At env data 12 = 0x0800 then 23 :: (if byteAt env data 23 = 17 then [36, 37] else [12, 13])
    else [12, 13]

def numDescs (dbuffSize n : ℕ) : ℕ := (n + dbuffSize - 1) / dbuffSize

/-- The parts that `packet_received` of a queue hands to its descriptors. -/
def chunkReads (dbuffSize n : ℕ) : List ℕ :=
  (List.range (numDescs dbuffSize n)).flatMap fun i =>
    (List.range (if i = numDescs dbuffSize n - 1 then n - dbuffSize * i else dbuffSize)).map (dbuffSize * i + ·)

/-- The queue is enabled and has the descriptors for a frame of `n` bytes. -/
def Takes (c : DescriptorQueue.Config RxClient RxPacket) (n : ℕ) : Prop :=
  c.q.enabled = true ∧ c.client.dbuffSize ≠ 0 ∧ numDescs c.client.dbuffSize n ≤ c.client.dcache.length

instance (c : DescriptorQueue.Config RxClient RxPacket) (n : ℕ) : Decidable (Takes c n) :=
  inferInstanceAs (Decidable (_ ∧ _))

/-- All that `lan::packet_received` indexes, through the functions that it calls. -/
def inspection (env : RxEnv) (d : Device) (hint : Option ℕ) (data : List UInt8) : List Access :=
  let queue := packetQueue d.atq.client.dev hint data
  (if hint = none then selectReads env d.atq.client.dev.rules data else []).map .byte ++ .queue queue ::
    if Takes (d.rxqs queue) data.length then
      (ptpReads env data ++ chunkReads (d.rxqs queue).client.dbuffSize data.length).map .byte
    else []

variable {byte : ℕ → UInt8} {rule : Rule} {env : RxEnv} {data : List UInt8}

theorem matchLoop_mem {is : List ℕ} {i : ℕ} (h : i ∈ (matchLoop byte rule is).1) : i ∈ is := by
  induction is with
  | nil => exact h
  | cons j is ih =>
    rw [matchLoop] at h
    split at h
    · rcases List.mem_cons.mp h with rfl | h
      · exact List.mem_cons_self
      · exact List.mem_cons_of_mem _ (ih h)
    · rw [List.mem_singleton.mp h]
      exact List.mem_cons_self

theorem matchLoop_true_iff (is : List ℕ) : (matchLoop byte rule is).2 = true ↔
    ∀ i ∈ is, recipe1.getD i 0 &&& byte i = rule.bytes.getD i 0 := by
  induction is with
  | nil => simp [matchLoop]
  | cons j is ih =>
    rw [matchLoop, List.forall_mem_cons]
    by_cases hj : recipe1.getD j 0 &&& byte j = rule.bytes.getD j 0
    · rw [if_pos hj]
      exact ih.trans (and_iff_right hj).symm
    · rw [if_neg hj]
      constructor
      · intro h
        cases h
      · rintro ⟨h, -⟩
        exact absurd h hj

theorem matchLoop_append (a b : List ℕ) : matchLoop byte rule (a ++ b) =
    if (matchLoop byte rule a).2 then ((matchLoop byte rule a).1 ++ (matchLoop byte rule b).1, (matchLoop byte rule b).2)
    else matchLoop byte rule a := by
  induction a with
  | nil => simp [matchLoop]
  | cons j a ih =>
    rw [List.cons_append, matchLoop, matchLoop]
    by_cases hj : recipe1.getD j 0 &&& byte j = rule.bytes.getD j 0
    · rw [if_pos hj, if_pos hj, ih]
      cases hb : (matchLoop byte rule a).2 with
      | true => simp
      | false => simp [hb]
    · rw [if_neg hj, if_neg hj]
      rfl

theorem matchLoop_all {is : List ℕ} (h : (matchLoop byte rule is).2 = true) : (matchLoop byte rule is).1 = is := by
  induction is with
  | nil => rfl
  | cons j is ih =>
    rw [matchLoop] at h ⊢
    split at h
    · rename_i hj
      rw [if_pos hj]
      exact congrArg (j :: ·) (ih h)
    · cases h

/-- Only the two bytes of the ethertype can differ, so a rule that fails has read no further. -/
theorem matchLoop_rule (r : RuleElem) (hn : 14 ≤ data.length) :
    let m := matchLoop (fun i => data.getD i (env.beyond i)) (ruleOf r) (List.range recipe1.length)
    (m.2 = true ↔ (ruleOf r).matches data = true) ∧ (m.2 = false → ∀ i ∈ m.1, i < 14) := by
  have hin : ∀ i, i < data.length → data.getD i (env.beyond i) = data.getD i 0 := by
    intro i hi
    simp only [List.getD_eq_getElem?_getD, List.getElem?_eq_getElem hi, Option.getD_some]
  have hmask : ∀ (x : UInt8) (i : ℕ), 14 ≤ i → recipe1.getD i 0 &&& x = (ruleOf r).bytes.getD i 0 := by
    intro x i hi
    change _ = r.masked.getD i 0
    rw [masked_getD, recipe1_getD, if_neg (by omega)]
    simp
  constructor
  · rw [matchLoop_true_iff, Rule.matches, List.all_eq_true]
    simp only [decide_eq_true_eq]
    refine forall_congr' fun i => forall_congr' fun _ => ?_
    by_cases hi : i < 14
    · rw [hin i (by omega)]
    · rw [hmask _ i (by omega), hmask _ i (by omega)]
  · intro hf i hi
    have hsplit : List.range recipe1.length = List.range 14 ++ (List.range 42).map (14 + ·) := by decide
    rw [hsplit, matchLoop_append] at hf hi
    split at hf
    · have htail : ∀ i ∈ (List.range 42).map (14 + ·),
          recipe1.getD i 0 &&& data.getD i (env.beyond i) = (ruleOf r).bytes.getD i 0 := by
        intro i hi
        obtain ⟨k, -, rfl⟩ := List.mem_map.mp hi
        exact hmask _ _ (Nat.le_add_right _ _)
      rw [(matchLoop_true_iff _).mpr htail] at hf
      cases hf
    · rename_i hfirst
      rw [if_neg hfirst] at hi
      exact List.mem_range.mp (matchLoop_mem hi)

theorem ruleReads_inBounds_iff (rs : List RuleElem) (hn : 14 ≤ data.length) :
    (∀ i ∈ ruleReads (fun i => data.getD i (env.beyond i)) (rs.map ruleOf), i < data.length) ↔
      (data.length < 56 → ∀ r ∈ rs, (ruleOf r).matches data = false) := by
  induction rs with
  | nil => simp [ruleReads]
  | cons r rs ih =>
    obtain ⟨hm, hshort⟩ := @matchLoop_rule env data r hn
    rw [List.map_cons, ruleReads, List.forall_mem_append, List.forall_mem_cons]
    cases hb : (matchLoop (fun i => data.getD i (env.beyond i)) (ruleOf r) (List.range recipe1.length)).2 with
    | true =>
      rw [hm.mp hb, matchLoop_all hb]
      simp only [if_true, List.not_mem_nil, false_implies, implies_true, and_true, List.mem_range,
        show recipe1.length = 56 from rfl]
      constructor
      · intro hall hlt
        exact absurd (hall data.length hlt) (lt_irrefl _)
      · intro hcond i hi
        by_cases hlt : data.length < 56
        · exact absurd (hcond hlt).1 (by decide)
        · omega
    | false =>
      have hno : (ruleOf r).matches data = false := by
        rw [Bool.eq_false_iff]
        intro ht
        rw [hm.mpr ht] at hb
        cases hb
      rw [if_neg (by decide), ih, hno]
      constructor
      · rintro ⟨-, h⟩ hlt
        exact ⟨rfl, h hlt⟩
      · intro h
        refine ⟨fun i hi => ?_, fun hlt => (h hlt).2⟩
        have hi14 := hshort hb i hi
        omega

theorem selectReads_inBounds_iff (rs : List RuleElem) :
    (∀ i ∈ selectReads env (rs.map ruleOf) data, i < data.length) ↔
      (14 ≤ data.length → data.length < 56 → ∀ r ∈ rs, (ruleOf r).matches data = false) := by
  unfold selectReads
  by_cases hn : data.length < 14
  · rw [if_pos hn]
    constructor
    · intro _ h
      omega
    · intro _ i hi
      cases hi
  · rw [if_neg hn, List.forall_mem_append, ruleReads_inBounds_iff rs (by omega)]
    constructor
    · rintro ⟨-, h⟩ -
      exact h
    · intro h
      refine ⟨fun i hi => ?_, h (by omega)⟩
      have hi8 := List.mem_range.mp hi
      omega

/-- The test of the clocks in `ptp_should_sample_rx` never fails. -/
theorem gltsynEna_on (env : RxEnv) :
    ¬(ptpGltsynEna (env.gltsynEna 0 % 2) = 0 ∨ ptpGltsynEna (env.gltsynEna 1 % 2) = 0) := by
  simp [ptpGltsynEna]

theorem ptpReads_inBounds_iff : (∀ i ∈ ptpReads env data, i < data.length) ↔
    14 ≤ data.length ∧
      (be16At env data 12 = 0x0800 → 24 ≤ data.length ∧ (byteAt env data 23 = 17 → 38 ≤ data.length)) := by
  rw [ptpReads, if_neg (gltsynEna_on env)]
  by_cases hip : be16At env data 12 = 0x0800
  · by_cases hudp : byteAt env data 23 = 17
    · simp only [hip, hudp, if_true, List.cons_append, List.nil_append, List.forall_mem_cons, List.not_mem_nil,
        false_implies, implies_true, and_true, true_implies]
      omega
    · simp only [hip, hudp, if_true, if_false, List.cons_append, List.nil_append, List.forall_mem_cons, List.not_mem_nil,
        false_implies, implies_true, and_true, true_implies]
      omega
  · simp only [hip, if_false, List.cons_append, List.nil_append, List.forall_mem_cons, List.not_mem_nil, false_implies,
      implies_true, and_true]
    omega

theorem chunkReads_inBounds (dbuffSize n : ℕ) : ∀ i ∈ chunkReads dbuffSize n, i < n := by
  intro i hi
  obtain ⟨k, hk, hi⟩ := List.mem_flatMap.mp hi
  obtain ⟨j, hj, rfl⟩ := List.mem_map.mp hi
  have hk := List.mem_range.mp hk
  have hj := List.mem_range.mp hj
  have hnum := Nat.div_mul_le_self (n + dbuffSize - 1) dbuffSize
  change numDescs dbuffSize n * dbuffSize ≤ _ at hnum
  by_cases hlast : k = numDescs dbuffSize n - 1
  · rw [if_pos hlast] at hj
    omega
  · rw [if_neg hlast] at hj
    have hle : dbuffSize * (k + 2) ≤ dbuffSize * numDescs dbuffSize n := Nat.mul_le_mul_left _ (by omega)
    rw [Nat.mul_comm dbuffSize (numDescs _ _), Nat.mul_add] at hle
    omega

/-- The length covers what is read of the headers: the type, for IPv4 the protocol and for UDP the
ports, and the whole mask once a rule matches. -/
structure Inspectable (env : RxEnv) (d : Device) (hint : Option ℕ) (data : List UInt8) : Prop where
  rules : hint = none → 14 ≤ data.length → data.length < 56 →
    ∀ rule ∈ d.atq.client.dev.rules, rule.matches data = false
  hinted : ∀ q, hint = some q → (d.atq.client.dev.vsi0FirstQueue + q) % 0x10000 < Registers.numQueues
  ruled : ∀ rule, hint = none → 14 ≤ data.length →
    (d.atq.client.dev.rules.find? fun rule => rule.matches data) = some rule → rule.dstQueue < Registers.numQueues
  default : hint = none → (14 ≤ data.length → ∀ rule ∈ d.atq.client.dev.rules, rule.matches data = false) →
    d.atq.client.dev.vsi0FirstQueue % 0x10000 < Registers.numQueues
  headers : Takes (d.rxqs (packetQueue d.atq.client.dev hint data)) data.length →
    14 ≤ data.length ∧
      (be16At env data 12 = 0x0800 → 24 ≤ data.length ∧ (byteAt env data 23 = 17 → 38 ≤ data.length))

theorem packetQueue_lt_iff (dev : AdminQueue.AdminDev) (hint : Option ℕ) (data : List UInt8) :
    packetQueue dev hint data < Registers.numQueues ↔
      (∀ q, hint = some q → (dev.vsi0FirstQueue + q) % 0x10000 < Registers.numQueues) ∧
      (∀ rule, hint = none → 14 ≤ data.length → (dev.rules.find? fun rule => rule.matches data) = some rule →
        rule.dstQueue < Registers.numQueues) ∧
      (hint = none → (14 ≤ data.length → ∀ rule ∈ dev.rules, rule.matches data = false) →
        dev.vsi0FirstQueue % 0x10000 < Registers.numQueues) := by
  cases hint with
  | some q => simp [packetQueue]
  | none =>
    simp only [packetQueue, selectQueue, reduceCtorEq, false_implies, implies_true, true_and, true_implies]
    by_cases hn : data.length < 14
    · have h14 : ¬14 ≤ data.length := by omega
      simp [hn, h14]
    · have h14 : 14 ≤ data.length := by omega
      rw [if_neg hn]
      simp only [h14, true_implies]
      cases hf : dev.rules.find? fun rule => rule.matches data with
      | some rule =>
        have hmem := List.mem_of_find?_eq_some hf
        have hmat := List.find?_some hf
        simp only [Option.some.injEq]
        constructor
        · intro h
          refine ⟨?_, fun hall => ?_⟩
          · rintro _ rfl
            exact h
          · rw [hall rule hmem] at hmat
            cases hmat
        · rintro ⟨h, -⟩
          exact h rule rfl
      | none =>
        rw [List.find?_eq_none] at hf
        simp only [reduceCtorEq, false_implies, implies_true, true_and]
        constructor
        · exact fun h _ => h
        · intro h
          exact h fun rule hr => by simpa using hf rule hr

theorem addRule_installed (rs : List RuleElem) (r : RuleElem) :
    ∃ rs' : List RuleElem, addRule (rs.map ruleOf) r = rs'.map ruleOf := by
  unfold addRule
  by_cases hr : r.Supported
  · exact ⟨rs ++ [r], by rw [if_pos hr, List.map_append]; rfl⟩
  · exact ⟨rs, if_neg hr⟩

theorem inspection_inBounds_iff (env : RxEnv) (d : Device) (rs : List RuleElem)
    (hrules : d.atq.client.dev.rules = rs.map ruleOf) (hint : Option ℕ) (data : List UInt8) :
    (∀ a ∈ inspection env d hint data, a.InBounds data.length) ↔ Inspectable env d hint data := by
  have hbytes : ∀ l : List ℕ, (∀ a ∈ l.map Access.byte, a.InBounds data.length) ↔ ∀ i ∈ l, i < data.length :=
    fun l => List.forall_mem_map
  have hselect : (∀ i ∈ (if hint = none then selectReads env d.atq.client.dev.rules data else []), i < data.length) ↔
      (hint = none → 14 ≤ data.length → data.length < 56 →
        ∀ rule ∈ d.atq.client.dev.rules, rule.matches data = false) := by
    by_cases hh : hint = none
    · rw [if_pos hh, hrules, selectReads_inBounds_iff]
      simp [hh]
    · simp [hh]
  have htaken : (∀ a ∈ (if Takes (d.rxqs (packetQueue d.atq.client.dev hint data)) data.length then
        (ptpReads env data ++ chunkReads (d.rxqs (packetQueue d.atq.client.dev hint data)).client.dbuffSize
          data.length).map Access.byte else []), a.InBounds data.length) ↔
      (Takes (d.rxqs (packetQueue d.atq.client.dev hint data)) data.length →
        ∀ i ∈ ptpReads env data, i < data.length) := by
    by_cases ht : Takes (d.rxqs (packetQueue d.atq.client.dev hint data)) data.length
    · rw [if_pos ht, hbytes, List.forall_mem_append, and_iff_left (chunkReads_inBounds _ _)]
      simp [ht]
    · simp [ht]
  have hqueue := packetQueue_lt_iff d.atq.client.dev hint data
  unfold inspection
  rw [List.forall_mem_append, List.forall_mem_cons, hbytes, hselect, htaken]
  constructor
  · rintro ⟨hr, hq, hp⟩
    obtain ⟨h1, h2, h3⟩ := hqueue.mp hq
    exact ⟨hr, h1, h2, h3, fun ht => ptpReads_inBounds_iff.mp (hp ht)⟩
  · intro h
    exact ⟨h.rules, hqueue.mpr ⟨h.hinted, h.ruled, h.default⟩, fun ht => ptpReads_inBounds_iff.mpr (h.headers ht)⟩

def clocksOff : RxEnv := ⟨fun _ => 0, 0, fun _ => 0⟩

def etypeRule (lo hi : UInt8) (queue : ℕ) : RuleElem :=
  ⟨0, 0, 1 + queue * 0x10, 56, List.replicate 12 0 ++ [lo, hi] ++ List.replicate 42 0⟩

def ready (rs : List RuleElem) : Device :=
  { zeroed with
    atq := { zeroed.atq with client := { zeroed.atq.client with dev := { zeroed.atq.client.dev with
      rules := rs.map ruleOf } } }
    rxqs := fun _ => ⟨{ freshQueue 32 with enabled := true }, ⟨[0], 2048, 0, 0, false⟩, [], []⟩ }

def udpFrame : List UInt8 :=
  List.replicate 12 0 ++ [0x08, 0x00] ++ List.replicate 9 0 ++ [17] ++ List.replicate 40 0

theorem inspection_inBounds_udp :
    .byte 55 ∈ inspection clocksOff (ready [etypeRule 0x08 0x00 5]) none udpFrame ∧
    ∀ a ∈ inspection clocksOff (ready [etypeRule 0x08 0x00 5]) none udpFrame, a.InBounds udpFrame.length := by
  refine ⟨by decide +kernel, ?_⟩
  refine (inspection_inBounds_iff clocksOff (ready [etypeRule 0x08 0x00 5]) [etypeRule 0x08 0x00 5] rfl none
    udpFrame).mpr ⟨?_, ?_, ?_, ?_, ?_⟩
  · intro _ _ h
    exact absurd h (by decide)
  · intro q hq
    cases hq
  · intro rule _ _ hf
    have hfirst : ((ready [etypeRule 0x08 0x00 5]).atq.client.dev.rules.find? fun rule => rule.matches udpFrame) =
        some (ruleOf (etypeRule 0x08 0x00 5)) := by decide
    rw [hfirst] at hf
    cases hf
    decide
  · intro _ _
    decide
  · intro _
    decide

/-- Even with both clocks off, an empty frame is read at offset 13. A frame of 14 bytes is read at offset 55
once a rule for its ethertype is installed, and such a rule can name queue 2047. -/
theorem inspection_outOfBounds :
    (.byte 13 ∈ inspection clocksOff (ready []) none [] ∧ ¬(Access.byte 13).InBounds 0) ∧
    (.byte 55 ∈ inspection clocksOff (ready [etypeRule 0x08 0x00 5]) (none : Option ℕ) (udpFrame.take 14) ∧
      ¬(Access.byte 55).InBounds 14) ∧
    .queue 2047 ∈ inspection clocksOff (ready [etypeRule 0x08 0x00 2047]) none udpFrame ∧
      ¬(Access.queue 2047).InBounds udpFrame.length := by
  decide +kernel

end Vmux.FrameInspection
