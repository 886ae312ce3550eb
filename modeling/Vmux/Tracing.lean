import Vmux.Contents
import Vmux.ExactlyOnce

namespace Vmux.Tracing

open Bytes CircularWindow Transitions DescriptorQueue ExactlyOnce

def pieces (descLen cnt : ℕ) (bytes : List UInt8) : List (List UInt8) :=
  (List.range cnt).map fun i => slice bytes (descLen * i) descLen

def returnedBy (descLen : ℕ) : Event → List (List UInt8)
  | .writeBack _ _ cnt _ bytes => pieces descLen cnt bytes
  | _ => []

/-- The descriptors as they were written back, in the order of `written`. -/
def returned (descLen : ℕ) (log : List Event) : List (List UInt8) := (ringLog log).flatMap (returnedBy descLen)

theorem pieces_flatMap {descLen cnt : ℕ} {f : ℕ → List UInt8} (h : ∀ i < cnt, (f i).length = descLen) :
    pieces descLen cnt ((List.range cnt).flatMap f) = (List.range cnt).map f := by
  induction cnt with
  | zero => rfl
  | succ n ih =>
    have hn : ((List.range n).flatMap f).length = descLen * n := by
      rw [List.length_flatMap, List.map_congr_left (g := fun _ => descLen), List.map_const', List.sum_replicate,
        List.length_range, smul_eq_mul, Nat.mul_comm]
      intro i hi
      exact h i (by have := List.mem_range.mp hi; omega)
    have hpre : pieces descLen n ((List.range (n + 1)).flatMap f) = pieces descLen n ((List.range n).flatMap f) := by
      apply List.map_congr_left
      intro i hi
      rw [List.mem_range] at hi
      have hmul : descLen * i + descLen ≤ descLen * n := by
        rw [← Nat.mul_succ]
        exact Nat.mul_le_mul_left _ hi
      rw [List.range_succ, List.flatMap_append, slice_append_left (by omega)]
    have hlast : slice ((List.range (n + 1)).flatMap f) (descLen * n) descLen = f n := by
      rw [List.range_succ, List.flatMap_append, ← hn, ← Nat.add_zero ((List.range n).flatMap f).length,
        slice_append_right, List.flatMap_singleton, slice, List.drop_zero, ← h n (by omega), List.take_length]
    rw [pieces, List.range_succ, List.map_append, List.map_append, ← List.range_succ]
    exact congr_arg₂ _ (hpre.trans (ih fun i hi => h i (by omega))) (congrArg (fun x => [x]) hlast)

section

variable {ε ι σ κ : Type}

/-- A queue, the number of slots its guest has posted and the descriptors that it has read. -/
structure Traced (σ κ : Type) where
  c : Config σ κ
  posted : ℕ
  seen : List (List UInt8)

def readNow (env : Env ε) (q : QueueBase) : Cmd κ → List (List UInt8)
  | .triggerFetch => pieces q.descLen q.fetchCnt (env.read q.fetchAddr (q.descLen * q.fetchCnt))
  | _ => []

/-- The guest writes tails below `bound`. -/
inductive TracedStep (S : Subclass ε ι σ κ) (len bound : ℕ) (s : Traced σ κ) : Traced σ κ → Prop
  | exec {c' : Config σ κ} (env : Env ε) (cmd : Cmd κ) (rest : List (Cmd κ)) (hs : s.c.stack = cmd :: rest)
      (h : exec S env { s.c with stack := rest } cmd = .ok c') :
      TracedStep S len bound s ⟨c', s.posted, s.seen ++ readNow env s.c.q cmd⟩
  | receive {c' : Config σ κ} (env : Env ε) (x : ι) (hs : s.c.stack = []) (h : receive S env s.c x = .ok c') :
      TracedStep S len bound s ⟨c', s.posted, s.seen⟩
  | tail (t : ℕ) (ht : t < bound) (hs : s.c.stack = []) :
      TracedStep S len bound s ⟨tailWrite s.c t, s.posted + (t + len - s.c.q.regTail) % len, s.seen⟩

variable {S : Subclass ε ι σ κ} {base len bound : ℕ} {s s' : Traced σ κ}

theorem TracedStep.queueStep (hl : bound ≤ 0x100000000) (h : TracedStep S len bound s s') : QueueStep S s.c s'.c := by
  cases h with
  | exec env cmd rest hs h => exact .exec env cmd rest hs h
  | receive env x hs h => exact .receive env x hs h
  | tail t ht hs => exact .tail t (by omega) hs rfl

/-- The turn `j` was answered by `d`, and `R` relates this to what was read. -/
def Answered (R : ℕ → List UInt8 → List UInt8 → Prop) (seen : List (List UInt8)) (j : ℕ) (d : List UInt8) : Prop :=
  ∃ o, seen[j]? = some o ∧ R j o d

/-- What has been read so far: the part that was written back and the part in the window. -/
structure Traces (T : Tracking S) (R : ℕ → List UInt8 → List UInt8 → Prop) (base len : ℕ) (s : Traced σ κ)
    (orig : Slot → List UInt8) (done : ℕ) : Prop where
  wrote : Wrote base len s.c done
  contents : Contents T orig s.c
  lengths : ∀ o ∈ s.seen, o.length = s.c.q.descLen
  seen_eq : s.seen.length = done + s.c.q.activeCnt
  window : ∀ i < s.c.q.activeCnt, s.seen[done + i]? = some (orig (slot maxActiveDescs (s.c.q.activeFirstPos + i)))
  back : List.Forall₂ (Answered R s.seen) (List.range (done + underway s.c.stack)) (returned s.c.q.descLen s.c.log)

variable {T : Tracking S} {R : ℕ → List UInt8 → List UInt8 → Prop} {orig : Slot → List UInt8} {done : ℕ} {env : Env ε}
  {cmd : Cmd κ} {rest : List (Cmd κ)} {c' : Config σ κ}

theorem ringed_unique {c : Config σ κ} {a b : ℕ} (ha : Ringed base len c a) (hb : Ringed base len c b) : a = b := by
  have hlen := congrArg List.length (ha.fetched_eq.symm.trans hb.fetched_eq)
  rw [turns, turns, List.length_map, List.length_map, List.length_range, List.length_range] at hlen
  omega

theorem returned_congr {descLen : ℕ} {a b : List Event} (h : ringLog a = ringLog b) :
    returned descLen a = returned descLen b := by
  rw [returned, h, returned]

theorem underway_append (new : List (Cmd κ)) (hi : Inv S s.c) (hs : s.c.stack = cmd :: rest)
    (hn : ∀ x ∈ new, x.isWriteback = false) : underway (new ++ rest) = 0 := by
  apply underway_of_isWriteback
  intro x hx
  rcases List.mem_append.mp hx with hx | hx
  · exact hn x hx
  · exact hi.settled.below cmd rest hs x hx

theorem readNow_eq_nil (orig : Slot → List UInt8) (hi : Inv S s.c) (he : exec S env { s.c with stack := rest } cmd = .ok c')
    (hr : c'.q.ring = s.c.q.ring) : readNow env s.c.q cmd = [] ∧ originAfter env s.c.q orig cmd = orig := by
  cases cmd with
  | triggerFetch =>
    have hz : s.c.q.fetchCnt = 0 := by
      rcases triggerFetch_ok (c := { s.c with stack := rest }) hi.enabled he with ⟨hz, -⟩ | ⟨-, -, rfl⟩
      · exact hz
      · have hcnt : s.c.q.activeCnt + s.c.q.fetchCnt = s.c.q.activeCnt := congrArg Ring.cnt hr
        omega
    refine ⟨?_, funext fun p => ?_⟩
    · rw [readNow, hz]
      rfl
    · rw [originAfter, update_of_le (hz ▸ Nat.zero_le _)]
  | _ => exact ⟨rfl, rfl⟩

theorem Traces.still (h : Traces T R base len s orig done) (ho : Wrote base len c' done)
    (hc : Contents T orig c') (hr : c'.q.ring = s.c.q.ring) (hlog : ringLog c'.log = ringLog s.c.log)
    (hu : underway c'.stack = underway s.c.stack) : Traces T R base len ⟨c', s.posted, s.seen⟩ orig done := by
  obtain ⟨-, -, h3, -, -, h6, -, h8⟩ := Ring.mk.inj hr
  change c'.q.descLen = s.c.q.descLen at h3
  change c'.q.activeFirstPos = s.c.q.activeFirstPos at h6
  change c'.q.activeCnt = s.c.q.activeCnt at h8
  refine ⟨ho, hc, ?_, ?_, ?_, ?_⟩
  · rw [h3]
    exact h.lengths
  · rw [h8]
    exact h.seen_eq
  · rw [h6, h8]
    exact h.window
  · rw [hu, h3, returned_congr hlog]
    exact h.back

theorem pieces_lengths {descLen cnt : ℕ} {bytes : List UInt8} (h : bytes.length = descLen * cnt) :
    ∀ o ∈ pieces descLen cnt bytes, o.length = descLen := by
  intro o ho
  obtain ⟨i, hi, rfl⟩ := List.mem_map.mp ho
  rw [List.mem_range] at hi
  have hmul : descLen * (i + 1) ≤ descLen * cnt := Nat.mul_le_mul_left _ hi
  rw [Nat.mul_succ] at hmul
  exact slice_length (by omega)

theorem Traces.fetch (h : Traces T R base len s orig done) (hi : Inv S s.c) (ho : Wrote base len c' done)
    (hc : Contents T (originAfter env s.c.q orig (.triggerFetch : Cmd κ)) c')
    (hr : c'.q.ring = { s.c.q.ring with cnt := s.c.q.activeCnt + s.c.q.fetchCnt })
    (hlog : ringLog c'.log = ringLog s.c.log ++
      [.fetch s.c.q.fetchPos s.c.q.nextIdx s.c.q.fetchCnt s.c.q.fetchAddr])
    (hu : underway c'.stack = underway s.c.stack) :
    Traces T R base len ⟨c', s.posted, s.seen ++ readNow env s.c.q (.triggerFetch : Cmd κ)⟩
      (originAfter env s.c.q orig (.triggerFetch : Cmd κ)) done := by
  have hl : 0 < s.c.q.len := Nat.lt_of_le_of_lt (Nat.zero_le _) hi.window.idx_lt
  have hcap := (fetchCnt_bounds s.c.q hl).2.1
  have hcnt := hi.window.cnt_le
  have hseen := h.seen_eq
  obtain ⟨-, -, h3, -, -, h6, -, h8⟩ := Ring.mk.inj hr
  change c'.q.descLen = s.c.q.descLen at h3
  change c'.q.activeFirstPos = s.c.q.activeFirstPos at h6
  change c'.q.activeCnt = s.c.q.activeCnt + s.c.q.fetchCnt at h8
  refine ⟨ho, hc, ?_, ?_, ?_, ?_⟩
  · intro o hm
    rw [h3]
    rcases List.mem_append.mp hm with hm | hm
    · exact h.lengths o hm
    · exact pieces_lengths (readBytes_length _ _ _) o hm
  · dsimp only
    rw [List.length_append, h8, hseen, readNow, pieces, List.length_map, List.length_range, Nat.add_assoc]
  · intro i hlt
    dsimp only at hlt ⊢
    rw [h8] at hlt
    rw [h6]
    have hoff : offset s.c.q.activeFirstPos (slot maxActiveDescs (s.c.q.activeFirstPos + i)) = i :=
      offset_slot _ _ (by omega)
    by_cases hold : i < s.c.q.activeCnt
    · have hw := offset_fetchPos_wrap s.c.q (slot maxActiveDescs (s.c.q.activeFirstPos + i)) (by omega) hcnt
      rw [List.getElem?_append_left (by omega), h.window i hold, originAfter, update_of_le (by omega)]
    · have hw := offset_fetchPos s.c.q (slot maxActiveDescs (s.c.q.activeFirstPos + i)) (by omega)
      rw [hoff] at hw
      rw [List.getElem?_append_right (by omega), originAfter, update_of_lt (by omega), hw, readNow, pieces,
        List.getElem?_map, List.getElem?_range (by omega),
        show done + i - s.seen.length = i - s.c.q.activeCnt by omega]
      rfl
  · dsimp only
    have hret : returned s.c.q.descLen c'.log = returned s.c.q.descLen s.c.log := by
      unfold returned
      rw [hlog, List.flatMap_append]
      exact List.append_nil _
    rw [hu, h3, hret]
    refine h.back.imp ?_
    rintro j d ⟨o, ho, hR⟩
    have hj : j < s.seen.length := (List.getElem?_eq_some_iff.mp ho).1
    exact ⟨o, (List.getElem?_append_left hj).trans ho, hR⟩

theorem Traces.writeback (h : Traces T R base len s orig done) (hi : Inv S s.c)
    (hR : ∀ j o d data, o.length = s.c.q.descLen → T.done (slot maxActiveDescs j) o d data →
      R j o d ∧ d.length = s.c.q.descLen)
    (hw : S.headWriteBack s.c.client = none) (hs : s.c.stack = .triggerWriteback :: rest)
    (ho : Wrote base len c' done) (hc : Contents T orig c') (hr : c'.q.ring = s.c.q.ring)
    (hlog : ringLog c'.log = ringLog s.c.log ++ [writebackEvent S { s.c with stack := rest }])
    (hst : c'.stack = .writebackDone s.c.q.activeFirstPos s.c.q.writebackCnt :: rest) :
    Traces T R base len ⟨c', s.posted, s.seen⟩ orig done := by
  obtain ⟨hle, -⟩ := writebackCnt_bounds s.c.q hi.window.idx_lt hi.len_lt
  obtain ⟨havail, hproc⟩ := writebackAvail_spec s.c.q
  have hseen := h.seen_eq
  obtain ⟨-, -, h3, -, -, h6, -, h8⟩ := Ring.mk.inj hr
  change c'.q.descLen = s.c.q.descLen at h3
  change c'.q.activeFirstPos = s.c.q.activeFirstPos at h6
  change c'.q.activeCnt = s.c.q.activeCnt at h8
  have hdone : ∀ i < s.c.q.writebackCnt, Answered R s.seen (done + i) (s.c.q.ctx (s.c.q.activeFirstPos + i)).desc ∧
      (s.c.q.ctx (s.c.q.activeFirstPos + i)).desc.length = s.c.q.descLen := by
    intro i hi'
    have hread := h.window i (by omega)
    have hslot : slot maxActiveDescs (s.c.q.activeFirstPos + i) = slot maxActiveDescs (done + i) := by
      rw [h.wrote.ringed.pos_eq, slot_mod_add]
    have hstage := h.contents.slots (slot maxActiveDescs (s.c.q.activeFirstPos + i))
    rw [← stateAt_eq, hproc i (by omega), hslot] at hstage
    obtain ⟨hrel, hlen⟩ := hR _ _ _ _ (h.lengths _ (List.mem_of_getElem? (hslot ▸ hread))) hstage
    rw [QueueBase.ctx, hslot]
    exact ⟨⟨_, hslot ▸ hread, hrel⟩, hlen⟩
  refine ⟨ho, hc, ?_, ?_, ?_, ?_⟩
  · rw [h3]
    exact h.lengths
  · rw [h8]
    exact h.seen_eq
  · rw [h6, h8]
    exact h.window
  · have hret : returned s.c.q.descLen c'.log = returned s.c.q.descLen s.c.log ++
        (List.range s.c.q.writebackCnt).map fun i => (s.c.q.ctx (s.c.q.activeFirstPos + i)).desc := by
      unfold returned
      rw [hlog, List.flatMap_append]
      congr 1
      simp only [writebackEvent, hw, List.flatMap_singleton, returnedBy]
      exact pieces_flatMap fun i hi' => (hdone i hi').2
    have hu : underway s.c.stack = 0 := by rw [hs]; rfl
    have hback := h.back
    rw [hu, Nat.add_zero] at hback
    dsimp only
    rw [hst, underway, h3, hret, List.range_add]
    refine List.rel_append hback ?_
    rw [List.forall₂_map_left_iff, List.forall₂_map_right_iff, List.forall₂_same]
    intro i hi'
    exact (hdone i (List.mem_range.mp hi')).1

theorem Traces.writebackDone {pos n : ℕ} (h : Traces T R base len s orig done) (hi : Inv S s.c)
    (hs : s.c.stack = .writebackDone pos n :: rest) (hq : c'.q = (s.c.q.markRange pos n .writtenBack).bump)
    (ho : Wrote base len c' (done + n)) (hc : Contents T orig c') (hlog : ringLog c'.log = ringLog s.c.log)
    (hst : c'.stack = trigger κ ++ rest) : Traces T R base len ⟨c', s.posted, s.seen⟩ orig (done + n) := by
  obtain ⟨hr, hcnt, -, hdl⟩ := h.wrote.ringed.writebackDone hi hs hq hlog
  obtain ⟨rfl, hn⟩ := hi.settled.front pos n rest hs
  have hseen := h.seen_eq
  have hpos : c'.q.activeFirstPos = (s.c.q.activeFirstPos + n) % maxActiveDescs := by
    rw [hr.pos_eq, h.wrote.ringed.pos_eq, Nat.mod_add_mod]
  refine ⟨ho, hc, ?_, ?_, ?_, ?_⟩
  · rw [hdl]
    exact h.lengths
  · dsimp only
    omega
  · intro i hlt
    dsimp only at hlt ⊢
    rw [hpos, slot_mod_add, Nat.add_assoc, Nat.add_assoc]
    exact h.window (n + i) (by omega)
  · have hback := h.back
    rw [hs, underway] at hback
    dsimp only
    rw [hst, hdl, returned_congr hlog]
    exact hback

theorem Traces.exec (h : Traces T R base len s orig done) (hi : Inv S s.c) (hw : S.headWriteBack s.c.client = none)
    (hR : ∀ j o d data, o.length = s.c.q.descLen → T.done (slot maxActiveDescs j) o d data →
      R j o d ∧ d.length = s.c.q.descLen)
    (ha : T.allowed env) (hpf : T.Processes env s.c.client) (hrf : ∀ k, cmd = .resume k → T.Resumes env s.c.client k)
    (hs : s.c.stack = cmd :: rest) (he : exec S env { s.c with stack := rest } cmd = .ok c') :
    ∃ orig' done', Traces T R base len ⟨c', s.posted, s.seen ++ readNow env s.c.q cmd⟩ orig' done' := by
  have hc := h.contents.exec ha hpf hrf hi hs he
  rcases exec_ring (c := { s.c with stack := rest }) hi.enabled he with
    ⟨hcmd, hr, hlog, new, hst, hnew⟩ | ⟨rfl, hn, hr, hlog, x, hst, hx⟩ | ⟨rfl, hn, hr, hlog, hst⟩ |
      ⟨pos, n, rfl, hq, hlog, hst⟩
  · obtain ⟨hnil, horig⟩ := readNow_eq_nil orig hi he hr
    have hu : underway c'.stack = underway s.c.stack := by
      rw [hst, underway_append new hi hs hnew, hs]
      exact (underway_append [cmd] hi hs (by simpa using hcmd)).symm
    rw [horig] at hc
    rw [hnil, List.append_nil]
    exact ⟨orig, done, h.still (h.wrote.congr hr hlog hu) hc hr hlog hu⟩
  · have hu : underway c'.stack = 0 := by
      rw [hst]
      exact underway_append [x] hi hs (by simpa using hx)
    have hu0 : underway s.c.stack = 0 := by rw [hs]; rfl
    exact ⟨_, done, h.fetch hi (h.wrote.fetch hi hs hr hlog hu) hc hr hlog (hu.trans hu0.symm)⟩
  · have hnil : readNow env s.c.q (.triggerWriteback : Cmd κ) = [] := rfl
    rw [hnil, List.append_nil]
    exact ⟨orig, done, h.writeback hi hR hw hs (h.wrote.writeback hi hw hs hr hlog hst) hc hr hlog hst⟩
  · have hnil : readNow env s.c.q (.writebackDone pos n : Cmd κ) = [] := rfl
    rw [hnil, List.append_nil]
    exact ⟨orig, done + n, h.writebackDone hi hs hq (h.wrote.writebackDone hi hs hq hlog hst) hc hlog hst⟩

theorem Traces.start (h : Enabled S base len s.c) (hs : s.seen = []) : Traces T R base len s orig 0 := by
  refine ⟨Wrote.start h, Contents.start h, ?_, ?_, ?_, ?_⟩
  · rw [hs]
    simp
  · rw [hs, h.cnt]
    rfl
  · rw [h.cnt]
    intro i hi
    omega
  · rw [hs, h.stack, h.log]
    exact .nil

theorem Traces.tail (h : Traces T R base len s orig done) (hi : Inv S s.c) (hs : s.c.stack = []) (t posted : ℕ) :
    Traces T R base len ⟨tailWrite s.c t, posted, s.seen⟩ orig done := by
  refine ⟨h.wrote.tail hi.enabled hs t, h.contents.tail t, h.lengths, h.seen_eq, h.window, ?_⟩
  have hback := h.back
  rw [hs] at hback
  simp only [tailWrite, hi.enabled, if_true, hs]
  exact hback

theorem Traces.receive {x : ι} (h : Traces T R base len s orig done) (hs : s.c.stack = [])
    (he : receive S env s.c x = .ok c') : Traces T R base len ⟨c', s.posted, s.seen⟩ orig done := by
  have hc := h.contents.receive he
  obtain ⟨k, rfl⟩ := receive_ok he
  have hu : underway (k.toList.map Cmd.resume ++ s.c.stack) = underway s.c.stack := by
    cases k <;> simp [hs, underway]
  exact h.still (h.wrote.congr rfl rfl hu) hc rfl rfl hu

theorem finish_regHead {ps : List Slot} {q q' : QueueBase} (h : finish ps q = .ok q') : q'.regHead = q.regHead := by
  induction ps generalizing q with
  | nil =>
    cases h
    rfl
  | cons p ps ih =>
    unfold finish at h
    split at h
    · exact (ih h).trans rfl
    · cases h

theorem setDescs_regHead (ds : List (Slot × List UInt8)) (q : QueueBase) : (setDescs ds q).regHead = q.regHead := by
  induction ds generalizing q with
  | nil => rfl
  | cons d ds ih => exact ih _

theorem setDatas_regHead (ds : List (Slot × List UInt8)) (q : QueueBase) : (setDatas ds q).regHead = q.regHead := by
  induction ds generalizing q with
  | nil => rfl
  | cons d ds ih => exact ih _

theorem applyEffect_regHead {c : Config σ κ} {e : Effect σ κ} (h : applyEffect env c e = .ok c') :
    c'.q.regHead = c.q.regHead := by
  obtain ⟨q, hq, rfl⟩ := applyEffect_ok h
  exact (finish_regHead hq).trans ((setDatas_regHead _ _).trans (setDescs_regHead _ _))

/-- The head register follows the window. -/
def Headed (c : Config σ κ) : Prop := c.q.regHead = c.q.activeFirstIdx

theorem Headed.exec {c : Config σ κ} (h : Headed c) (he : c.q.enabled = true)
    (hx : exec S env c cmd = .ok c') : Headed c' := by
  cases cmd with
  | triggerFetch =>
    rcases triggerFetch_ok he hx with ⟨-, rfl⟩ | ⟨-, -, rfl⟩
    · exact h
    · exact h
  | triggerProcess =>
    cases hx
    rw [triggerProcess_eq he]
    exact h
  | triggerWriteback =>
    rcases triggerWriteback_ok he hx with ⟨-, rfl⟩ | ⟨-, rfl⟩
    · exact h
    · exact h
  | processLoop i j =>
    rcases processLoop_ok hx with ⟨-, rfl⟩ | ⟨-, -, p, q, e, rfl, rfl, -, ha⟩
    · exact h
    · exact (applyEffect_regHead ha).trans (Eq.trans h (congrArg Ring.firstIdx (applyEffect_applied ha).ring).symm)
  | fetchDone pos cnt i buf =>
    rcases fetchDone_ok hx with ⟨-, rfl⟩ | ⟨-, p, d, q, -, -, rfl, ⟨-, rfl⟩ | ⟨addr, len, -, rfl⟩⟩
    · exact h
    · exact h
    · exact h
  | dataFetch p addr off total =>
    obtain ⟨n, q, -, rfl, ⟨-, rfl⟩ | ⟨-, rfl⟩⟩ := dataFetch_ok hx
    · exact h
    · exact h
  | dataWritten p =>
    rw [dataWritten_ok hx]
    exact h
  | writebackDone pos n =>
    rw [(writebackDone_ok he hx).2]
    rfl
  | resume k =>
    obtain ⟨e, -, ha⟩ := resume_ok hx
    exact (applyEffect_regHead ha).trans (Eq.trans h (congrArg Ring.firstIdx (applyEffect_applied ha).ring).symm)

theorem Headed.step {c : Config σ κ} (h : Headed c) (hi : Inv S c) (hs : QueueStep S c c') : Headed c' := by
  cases hs with
  | exec env cmd rest hs hx => exact Headed.exec (c := { c with stack := rest }) h hi.enabled hx
  | tail t _ hs hx =>
    subst hx
    exact h
  | receive env x hs hx =>
    obtain ⟨k, rfl⟩ := receive_ok hx
    exact h

theorem exec_descLen {c : Config σ κ} (he : c.q.enabled = true) (hx : exec S env c cmd = .ok c') :
    c'.q.descLen = c.q.descLen := by
  rcases exec_ring he hx with ⟨-, hr, -⟩ | ⟨-, -, hr, -⟩ | ⟨-, -, hr, -⟩ | ⟨pos, n, -, hq, -⟩
  · exact congrArg Ring.descLen hr
  · exact congrArg Ring.descLen hr
  · exact congrArg Ring.descLen hr
  · rw [hq]
    rfl

/-- Run up to `n` commands of the cascade, as long as every state on the way passes the check. -/
def advance (S : Subclass ε ι σ κ) (env : Env ε) (check : Config σ κ → Bool) : ℕ → Traced σ κ → Option (Traced σ κ)
  | 0, s => some s
  | n + 1, s =>
    match s.c.stack with
    | [] => some s
    | cmd :: rest =>
      if check s.c then
        match exec S env { s.c with stack := rest } cmd with
        | .ok c' => advance S env check n ⟨c', s.posted, s.seen ++ readNow env s.c.q cmd⟩
        | .error _ => none
      else none

/-- The guest writes these tails, each to a queue at rest. -/
def post (S : Subclass ε ι σ κ) (env : Env ε) (check : Config σ κ → Bool) (len bound n : ℕ) :
    List ℕ → Traced σ κ → Option (Traced σ κ)
  | [], s => advance S env check n s
  | t :: ts, s =>
    match advance S env check n s with
    | none => none
    | some s =>
      if s.c.stack.isEmpty ∧ t < bound ∧ check s.c then
        post S env check len bound n ts ⟨tailWrite s.c t, s.posted + (t + len - s.c.q.regTail) % len, s.seen⟩
      else none

theorem reachable_advance {M : Machine (Traced σ κ)} {check : Config σ κ → Bool} {n : ℕ}
    (hM : ∀ a b, check a.c = true → TracedStep S len bound a b → M.step a b) (hs : M.Reachable s)
    (h : advance S env check n s = some s') : M.Reachable s' := by
  induction n generalizing s with
  | zero =>
    cases h
    exact hs
  | succ n ih =>
    rw [advance] at h
    split at h
    · cases h
      exact hs
    · rename_i cmd rest hst
      split at h
      · rename_i hc
        split at h
        · rename_i c' he
          exact ih (.step hs (hM _ _ hc (.exec env cmd rest hst he))) h
        · cases h
      · cases h

theorem reachable_post {M : Machine (Traced σ κ)} {check : Config σ κ → Bool} {n : ℕ} {ts : List ℕ}
    (hM : ∀ a b, check a.c = true → TracedStep S len bound a b → M.step a b) (hs : M.Reachable s)
    (h : post S env check len bound n ts s = some s') : M.Reachable s' := by
  induction ts generalizing s with
  | nil => exact reachable_advance hM hs h
  | cons t ts ih =>
    rw [post] at h
    split at h
    · cases h
    · rename_i r hr
      split at h
      · rename_i hc
        have hrest : r.c.stack = [] := List.isEmpty_iff.mp hc.1
        exact ih (.step (reachable_advance hM hs hr) (hM _ _ hc.2.2 (.tail t hc.2.1 hrest))) h
      · cases h

end

end Vmux.Tracing
