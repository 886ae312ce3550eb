import Vmux.RingSteps

namespace Vmux.DescriptorQueue

open Bytes CircularWindow Transitions Ownership

/-- What a list of assignments leaves in each slot. -/
def assigned {α : Type} (f : Slot → α) : List (Slot × α) → Slot → α
  | [] => f
  | (p, x) :: rest => assigned (Function.update f p x) rest

theorem assigned_of_notMem {α : Type} {f : Slot → α} {l : List (Slot × α)} {p : Slot} (h : ∀ x ∈ l, x.1 ≠ p) :
    assigned f l p = f p := by
  induction l generalizing f with
  | nil => rfl
  | cons x l ih =>
    rw [assigned, ih fun y hy => h y (List.mem_cons_of_mem _ hy)]
    exact Function.update_of_ne (h x List.mem_cons_self).symm _ _

def descOf (ctxs : Slot → DescCtx) (p : Slot) : List UInt8 := (ctxs p).desc

def dataOf (ctxs : Slot → DescCtx) (p : Slot) : List UInt8 := (ctxs p).data

section

variable (q : QueueBase)

theorem descOf_modify (p : Slot) (f : DescCtx → DescCtx) :
    descOf (q.modify p f).ctxs = Function.update (descOf q.ctxs) p (f (q.ctxs p)).desc := by
  funext r
  by_cases hr : r = p
  · subst hr
    simp [descOf, QueueBase.modify]
  · simp [descOf, QueueBase.modify, hr]

theorem dataOf_modify (p : Slot) (f : DescCtx → DescCtx) :
    dataOf (q.modify p f).ctxs = Function.update (dataOf q.ctxs) p (f (q.ctxs p)).data := by
  funext r
  by_cases hr : r = p
  · subst hr
    simp [dataOf, QueueBase.modify]
  · simp [dataOf, QueueBase.modify, hr]

theorem descOf_setState (p : Slot) (s : DescState) : descOf (q.setState p s).ctxs = descOf q.ctxs := by
  rw [QueueBase.setState, descOf_modify]
  exact Function.update_eq_self _ _

theorem dataOf_setState (p : Slot) (s : DescState) : dataOf (q.setState p s).ctxs = dataOf q.ctxs := by
  rw [QueueBase.setState, dataOf_modify]
  exact Function.update_eq_self _ _

theorem contents_update (first cnt : ℕ) (f : ℕ → DescCtx → DescCtx) (hd : ∀ i x, (f i x).desc = x.desc)
    (hb : ∀ i x, (f i x).data = x.data) :
    descOf (update q.ctxs first cnt f) = descOf q.ctxs ∧ dataOf (update q.ctxs first cnt f) = dataOf q.ctxs := by
  constructor <;> funext r
  · unfold descOf update
    split
    · exact hd _ _
    · rfl
  · unfold dataOf update
    split
    · exact hb _ _
    · rfl

theorem setDescs_contents (ds : List (Slot × List UInt8)) :
    descOf (setDescs ds q).ctxs = assigned (descOf q.ctxs) ds ∧ dataOf (setDescs ds q).ctxs = dataOf q.ctxs := by
  induction ds generalizing q with
  | nil => exact ⟨rfl, rfl⟩
  | cons x ds ih =>
    obtain ⟨h1, h2⟩ := ih (q.modify x.1 fun y => { y with desc := x.2 })
    refine ⟨h1.trans (by rw [descOf_modify]; rfl), h2.trans ?_⟩
    rw [dataOf_modify]
    exact Function.update_eq_self _ _

theorem setDatas_contents (ds : List (Slot × List UInt8)) :
    dataOf (setDatas ds q).ctxs = assigned (dataOf q.ctxs) ds ∧ descOf (setDatas ds q).ctxs = descOf q.ctxs := by
  induction ds generalizing q with
  | nil => exact ⟨rfl, rfl⟩
  | cons x ds ih =>
    obtain ⟨h1, h2⟩ := ih (q.modify x.1 fun y => { y with data := x.2 })
    refine ⟨h1.trans (by rw [dataOf_modify]; rfl), h2.trans ?_⟩
    rw [descOf_modify]
    exact Function.update_eq_self _ _

theorem finish_contents {ps : List Slot} {q q' : QueueBase} (h : finish ps q = .ok q') :
    descOf q'.ctxs = descOf q.ctxs ∧ dataOf q'.ctxs = dataOf q.ctxs := by
  induction ps generalizing q with
  | nil =>
    cases h
    exact ⟨rfl, rfl⟩
  | cons p ps ih =>
    unfold finish at h
    split at h
    · obtain ⟨h1, h2⟩ := ih h
      exact ⟨h1.trans (descOf_setState q p _), h2.trans (dataOf_setState q p _)⟩
    · cases h

end

section

variable {ε ι σ κ : Type} {S : Subclass ε ι σ κ} {env : Env ε} {c c' : Config σ κ}

theorem applyEffect_contents {e : Effect σ κ} (h : applyEffect env c e = .ok c') :
    descOf c'.q.ctxs = assigned (descOf c.q.ctxs) e.descs ∧ dataOf c'.q.ctxs = assigned (dataOf c.q.ctxs) e.datas := by
  obtain ⟨q, hq, rfl⟩ := applyEffect_ok h
  obtain ⟨h1, h2⟩ := finish_contents hq
  obtain ⟨h3, h4⟩ := setDatas_contents (setDescs e.descs c.q) e.datas
  obtain ⟨h5, h6⟩ := setDescs_contents c.q e.descs
  exact ⟨h1.trans (h4.trans h5), h2.trans (h3.trans (by rw [h6]))⟩

/-- A context once it is prepared: the descriptor as it was fetched, and its data. -/
def Ready (S : Subclass ε ι σ κ) (load : ℕ → ℕ → List UInt8 → Prop) (o desc data : List UInt8) : Prop :=
  desc = o ∧ ∀ addr len, S.prepare o = .dataFetch addr len → len ≤ data.length ∧ load addr len data

/-- How the descriptors of a queue are followed from the fetch to the write-back, under the
environments that are `allowed`: `load` says what a data fetch has brought so far, `keeps` what
holds while the subclass has the context and `done` what holds once it has finished with it. -/
structure Tracking (S : Subclass ε ι σ κ) where
  allowed : Env ε → Prop
  load : ℕ → ℕ → List UInt8 → Prop
  keeps : Slot → List UInt8 → List UInt8 → List UInt8 → Prop
  done : Slot → List UInt8 → List UInt8 → List UInt8 → Prop
  load_nil : ∀ addr data, load addr 0 data
  load_read : ∀ {env addr off n data}, allowed env → load addr off data → off + n ≤ data.length →
    load addr (off + n) (overwrite data off (env.read (addr + off) n))

/-- What the code of a subclass leaves in the contexts `mine` that it works on. -/
structure Leaves (T : Tracking S) (orig : Slot → List UInt8) (mine : List Slot) (ctxs : Slot → DescCtx)
    (e : Effect σ κ) : Prop where
  descs : ∀ x ∈ e.descs, x.1 ∈ mine
  datas : ∀ x ∈ e.datas, x.1 ∈ mine
  released : ∀ p ∈ e.released,
    T.done p (orig p) (assigned (descOf ctxs) e.descs p) (assigned (dataOf ctxs) e.datas p)
  held : ∀ p ∈ S.held e.client,
    T.keeps p (orig p) (assigned (descOf ctxs) e.descs p) (assigned (dataOf ctxs) e.datas p)

def Tracking.Keeps (T : Tracking S) (orig : Slot → List UInt8) (s : σ) (ctxs : Slot → DescCtx) : Prop :=
  ∀ r ∈ S.held s, T.keeps r (orig r) (descOf ctxs r) (dataOf ctxs r)

/-- A call of `process` in this state does its part. -/
def Tracking.Processes (T : Tracking S) (env : Env ε) (s : σ) : Prop :=
  ∀ ctxs p e orig, S.process env.client s ctxs p = .ok e → (S.held s ++ [p]).Nodup →
    Ready S T.load (orig p) (descOf ctxs p) (dataOf ctxs p) → T.Keeps orig s ctxs →
    Leaves T orig (S.held s ++ [p]) ctxs e

/-- And so does the rest of an earlier call. -/
def Tracking.Resumes (T : Tracking S) (env : Env ε) (s : σ) (k : κ) : Prop :=
  ∀ ctxs e orig, S.resume env.client s ctxs k = .ok e → (S.held s).Nodup → T.Keeps orig s ctxs →
    Leaves T orig (S.held s) ctxs e

/-- What holds of a context in each state, where `o` is what was fetched for it. -/
def Tracking.Stage (T : Tracking S) (p : Slot) (st : DescState) (o desc data : List UInt8) : Prop :=
  match st with
  | .prepared => Ready S T.load o desc data
  | .processed | .writingBack => T.done p o desc data
  | _ => True

/-- What holds of the contexts that a pending command is to work on. -/
def Tracking.Sound (T : Tracking S) (orig : Slot → List UInt8) (q : QueueBase) : Cmd κ → Prop
  | .fetchDone pos cnt i buf => ∀ j, i ≤ j → j < cnt →
      slice buf (q.descLen * j) q.descLen = orig (slot maxActiveDescs (pos + j))
  | .dataFetch p addr off total => descOf q.ctxs p = orig p ∧ S.prepare (orig p) = .dataFetch addr total ∧
      off ≤ total ∧ total ≤ (dataOf q.ctxs p).length ∧ T.load addr off (dataOf q.ctxs p)
  | .dataWritten p => T.done p (orig p) (descOf q.ctxs p) (dataOf q.ctxs p)
  | _ => True

/-- The contents of the contexts, where `orig` is what was fetched for each. -/
structure Contents (T : Tracking S) (orig : Slot → List UInt8) (c : Config σ κ) : Prop where
  cmds : ∀ x ∈ c.stack, T.Sound orig c.q x
  slots : ∀ p, T.Stage p (c.q.states p) (orig p) (descOf c.q.ctxs p) (dataOf c.q.ctxs p)
  held : T.Keeps orig c.client c.q.ctxs

/-- What a fetch brings for each slot. -/
def originAfter (env : Env ε) (q : QueueBase) (orig : Slot → List UInt8) : Cmd κ → Slot → List UInt8
  | .triggerFetch => update orig q.fetchPos q.fetchCnt fun i _ =>
      slice (env.read q.fetchAddr (q.descLen * q.fetchCnt)) (q.descLen * i) q.descLen
  | _ => orig

variable {T : Tracking S} {orig orig' : Slot → List UInt8} {cmd : Cmd κ} {rest : List (Cmd κ)}

theorem Tracking.Sound.congr {q q' : QueueBase} (h : T.Sound orig q cmd) (hl : q'.descLen = q.descLen)
    (hs : ∀ p s, (p, s) ∈ cmd.claims → orig' p = orig p ∧ descOf q'.ctxs p = descOf q.ctxs p ∧
      dataOf q'.ctxs p = dataOf q.ctxs p) : T.Sound orig' q' cmd := by
  cases cmd with
  | fetchDone pos cnt i buf =>
    intro j hij hj
    have hm : (slot maxActiveDescs (pos + j), DescState.fetching) ∈ (Cmd.fetchDone pos cnt i buf : Cmd κ).claims :=
      mem_rangeClaims.mpr ⟨⟨j, hij, by omega, rfl⟩, rfl⟩
    rw [hl, (hs _ _ hm).1]
    exact h j hij hj
  | dataFetch p addr off total =>
    obtain ⟨h1, h2, h3⟩ := hs p .preparing (by simp [Cmd.claims])
    simp only [Tracking.Sound] at h ⊢
    rw [h1, h2, h3]
    exact h
  | dataWritten p =>
    obtain ⟨h1, h2, h3⟩ := hs p .processing (by simp [Cmd.claims])
    simp only [Tracking.Sound] at h ⊢
    rw [h1, h2, h3]
    exact h
  | _ => trivial

theorem Contents.update (h : Contents T orig c) (D : Slot → Prop) (hl : c'.q.descLen = c.q.descLen)
    (hout : ∀ p, ¬D p → orig' p = orig p ∧ descOf c'.q.ctxs p = descOf c.q.ctxs p ∧
      dataOf c'.q.ctxs p = dataOf c.q.ctxs p ∧ c'.q.states p = c.q.states p)
    (hfree : ∀ x ∈ c.stack, ∀ p s, (p, s) ∈ x.claims → ¬D p)
    (hnew : ∀ x ∈ c'.stack, x ∈ c.stack ∨ T.Sound orig' c'.q x)
    (hin : ∀ p, D p → T.Stage p (c'.q.states p) (orig' p) (descOf c'.q.ctxs p) (dataOf c'.q.ctxs p))
    (hheld : ∀ p ∈ S.held c'.client, p ∈ S.held c.client ∧ ¬D p ∨
      T.keeps p (orig' p) (descOf c'.q.ctxs p) (dataOf c'.q.ctxs p)) : Contents T orig' c' := by
  refine ⟨?_, ?_, ?_⟩
  · intro x hx
    rcases hnew x hx with hx | hx
    · refine (h.cmds x hx).congr hl ?_
      intro p s hm
      obtain ⟨h1, h2, h3, -⟩ := hout p (hfree x hx p s hm)
      exact ⟨h1, h2, h3⟩
    · exact hx
  · intro p
    by_cases hp : D p
    · exact hin p hp
    · obtain ⟨h1, h2, h3, h4⟩ := hout p hp
      rw [h1, h2, h3, h4]
      exact h.slots p
  · intro p hp
    rcases hheld p hp with ⟨hm, hn⟩ | hk
    · obtain ⟨h1, h2, h3, -⟩ := hout p hn
      rw [h1, h2, h3]
      exact h.held p hm
    · exact hk

theorem Contents.pop (h : Contents T orig c) (hs : c.stack = cmd :: rest) :
    Contents T orig { c with stack := rest } :=
  ⟨fun x hx => h.cmds x (by rw [hs]; exact List.mem_cons_of_mem _ hx), h.slots, h.held⟩

theorem Contents.push (h : Contents T orig c) (new : List (Cmd κ)) (hn : ∀ x ∈ new, T.Sound orig c.q x) :
    Contents T orig { c with stack := new ++ c.stack } := by
  refine ⟨?_, h.slots, h.held⟩
  intro x hx
  rcases List.mem_append.mp hx with hx | hx
  · exact hn x hx
  · exact h.cmds x hx

theorem trigger_sound {q : QueueBase} : ∀ x ∈ trigger κ, T.Sound orig q x := by
  simp [trigger, Tracking.Sound]

theorem Running.unclaimed (h : Running S cmd c) {D : Slot → Prop}
    (hD : ∀ p, D p → ¬Busy (c.q.states p) ∨ ∃ s, (p, s) ∈ cmd.claims) :
    (∀ x ∈ c.stack, ∀ p s, (p, s) ∈ x.claims → ¬D p) ∧ ∀ p ∈ S.held c.client, ¬D p := by
  have hclaimed : ∀ p s, (p, s) ∈ claims S c → ¬D p := by
    intro p s hm hp
    obtain ⟨hst, hb⟩ := (h.owned.mem_iff p s).mp (List.mem_append_right _ hm)
    rcases hD p hp with hn | ⟨t, ht⟩
    · exact hn (hst ▸ hb)
    · exact h.owned.disjoint ht hm
  refine ⟨fun x hx p s hm => hclaimed p s ?_, fun p hp => hclaimed p .processing ?_⟩
  · exact List.mem_append_left _ (List.mem_flatMap.mpr ⟨x, hx, hm⟩)
  · exact List.mem_append_right _ (List.mem_map_of_mem hp)

theorem contents_fetch (h : Running S .triggerFetch c) (hc : Contents T orig c) (hl : c.q.len ≠ 0) :
    Contents T (originAfter env c.q orig (.triggerFetch : Cmd κ)) { c with
      q := c.q.beginFetch
      stack := .fetchDone c.q.fetchPos c.q.fetchCnt 0 (env.read c.q.fetchAddr (c.q.descLen * c.q.fetchCnt)) :: c.stack
      log := c.log ++ [.fetch c.q.fetchPos c.q.nextIdx c.q.fetchCnt c.q.fetchAddr] } := by
  have hcap := (fetchCnt_bounds c.q (Nat.pos_of_ne_zero hl)).2.1
  have hcnt := h.window.cnt_le
  have hempty : ∀ p, offset c.q.fetchPos p < c.q.fetchCnt → c.q.states p = .empty := by
    intro p hp
    by_contra hne
    have ho := (h.window.active_iff p).mpr hne
    have hw := offset_fetchPos_wrap c.q p ho hcnt
    omega
  obtain ⟨hfree, hheld⟩ := h.unclaimed (D := fun p => offset c.q.fetchPos p < c.q.fetchCnt)
    fun p hp => .inl (by rw [hempty p hp]; simp [Busy])
  obtain ⟨hd, hb⟩ := contents_update c.q c.q.fetchPos c.q.fetchCnt
    (fun i x => { x with state := .fetching, index := (c.q.nextIdx + i) % c.q.len }) (fun _ _ => rfl) fun _ _ => rfl
  refine hc.update (fun p => offset c.q.fetchPos p < c.q.fetchCnt) rfl ?_ hfree ?_ ?_ ?_
  · intro p hp
    have horig : originAfter env c.q orig (.triggerFetch : Cmd κ) p = orig p := by
      rw [originAfter, update_of_le (Nat.le_of_not_lt hp)]
    refine ⟨horig, congr_fun hd p, congr_fun hb p, ?_⟩
    exact (states_beginFetch c.q p).trans (if_neg hp)
  · intro x hx
    rcases List.mem_cons.mp hx with rfl | hx
    · right
      intro j _ hj
      have ho : offset c.q.fetchPos (slot maxActiveDescs (c.q.fetchPos + j)) = j := offset_slot _ _ (by omega)
      rw [originAfter, update_of_lt (by omega), ho]
      rfl
    · exact .inl hx
  · intro p hp
    have hst : c.q.beginFetch.states p = .fetching := (states_beginFetch c.q p).trans (if_pos hp)
    change T.Stage p (c.q.beginFetch.states p) _ _ _
    rw [hst]
    trivial
  · exact fun p hp => .inl ⟨hp, hheld p hp⟩

theorem contents_writeback (h : Running S .triggerWriteback c) (hc : Contents T orig c) (x : Event) :
    Contents T orig { c with
      q := c.q.markRange c.q.activeFirstPos c.q.writebackCnt .writingBack
      stack := .writebackDone c.q.activeFirstPos c.q.writebackCnt :: c.stack
      log := c.log ++ [x] } := by
  have hle := (writebackCnt_bounds c.q h.window.idx_lt h.len_lt).1
  have hpr : ∀ p, offset c.q.activeFirstPos p < c.q.writebackCnt → c.q.states p = .processed := by
    intro p hp
    exact states_of_offset (writebackAvail_spec c.q).2 (by omega)
  obtain ⟨hfree, hheld⟩ := h.unclaimed (D := fun p => offset c.q.activeFirstPos p < c.q.writebackCnt)
    fun p hp => .inl (by rw [hpr p hp]; simp [Busy])
  obtain ⟨hd, hb⟩ := contents_update c.q c.q.activeFirstPos c.q.writebackCnt
    (fun _ x => { x with state := .writingBack }) (fun _ _ => rfl) fun _ _ => rfl
  change descOf (c.q.markRange c.q.activeFirstPos c.q.writebackCnt .writingBack).ctxs = _ at hd
  change dataOf (c.q.markRange c.q.activeFirstPos c.q.writebackCnt .writingBack).ctxs = _ at hb
  refine hc.update (fun p => offset c.q.activeFirstPos p < c.q.writebackCnt) rfl ?_ hfree ?_ ?_ ?_
  · intro p hp
    refine ⟨rfl, congr_fun hd p, congr_fun hb p, ?_⟩
    exact (states_markRange c.q _ _ _ p).trans (if_neg hp)
  · intro x hx
    rcases List.mem_cons.mp hx with rfl | hx
    · exact .inr trivial
    · exact .inl hx
  · intro p hp
    have hst : (c.q.markRange c.q.activeFirstPos c.q.writebackCnt .writingBack).states p = .writingBack :=
      (states_markRange c.q _ _ _ p).trans (if_pos hp)
    have hdone := hc.slots p
    rw [hpr p hp] at hdone
    dsimp only
    rw [hst, hd, hb]
    exact hdone
  · exact fun p hp => .inl ⟨hp, hheld p hp⟩

theorem contents_writebackDone {pos n : ℕ} (h : Running S (.writebackDone pos n) c) (hc : Contents T orig c)
    (hpos : pos = c.q.activeFirstPos) (hn : n ≤ c.q.activeCnt) :
    Contents T orig { c with
      q := (c.q.markRange pos n .writtenBack).bump
      stack := trigger κ ++ c.stack
      log := c.log ++ [.interrupt] } := by
  subst hpos
  have hbump := bumpCnt_eq h.window.cnt_le hn h.states
  have hst := states_bump hbump
  have hcnt := h.window.cnt_le
  obtain ⟨hfree, hheld⟩ := h.unclaimed (D := fun p => offset c.q.activeFirstPos p < n)
    fun p hp => .inr ⟨.writingBack, (mem_rangeClaims_zero (by omega)).mpr ⟨hp, rfl⟩⟩
  obtain ⟨hd₁, hb₁⟩ := contents_update c.q c.q.activeFirstPos n
    (fun _ x => { x with state := .writtenBack }) (fun _ _ => rfl) fun _ _ => rfl
  obtain ⟨hd₂, hb₂⟩ := contents_update (c.q.markRange c.q.activeFirstPos n .writtenBack) c.q.activeFirstPos
    (c.q.markRange c.q.activeFirstPos n .writtenBack).bumpCnt
    (fun _ x => { x with state := .empty }) (fun _ _ => rfl) fun _ _ => rfl
  refine hc.update (fun p => offset c.q.activeFirstPos p < n) rfl ?_ hfree ?_ ?_ ?_
  · intro p hp
    refine ⟨rfl, congr_fun (hd₂.trans hd₁) p, congr_fun (hb₂.trans hb₁) p, ?_⟩
    exact (hst p).trans (if_neg hp)
  · intro x hx
    rcases List.mem_append.mp hx with hx | hx
    · exact .inr (trigger_sound x hx)
    · exact .inl hx
  · intro p hp
    dsimp only
    rw [hst p, if_pos hp]
    trivial
  · exact fun p hp => .inl ⟨hp, hheld p hp⟩

theorem contents_slot {p : Slot} {s : DescState} (h : Running S cmd c) (hc : Contents T orig c)
    (hp : (p, s) ∈ cmd.claims) (hl : c'.q.descLen = c.q.descLen) (hcl : c'.client = c.client)
    (hr : ∀ r, r ≠ p → c'.q.ctxs r = c.q.ctxs r)
    (hnew : ∀ x ∈ c'.stack, x ∈ c.stack ∨ T.Sound orig c'.q x)
    (hin : T.Stage p (c'.q.states p) (orig p) (descOf c'.q.ctxs p) (dataOf c'.q.ctxs p)) : Contents T orig c' := by
  obtain ⟨hfree, hheld⟩ := h.unclaimed (D := fun r => r = p) fun r hr => .inr ⟨s, hr ▸ hp⟩
  refine hc.update (fun r => r = p) hl ?_ hfree hnew ?_ ?_
  · intro r hne
    simp only [descOf, dataOf, QueueBase.states, hr r hne, and_self]
  · rintro r rfl
    exact hin
  · intro r hr
    rw [hcl] at hr
    exact .inl ⟨hr, hheld r hr⟩

theorem modify_of_ne (q : QueueBase) {p r : Slot} (f : DescCtx → DescCtx) (hr : r ≠ p) :
    (q.modify p f).ctxs r = q.ctxs r := Function.update_of_ne hr _ _

theorem modify_self (q : QueueBase) (p : Slot) (f : DescCtx → DescCtx) : (q.modify p f).ctxs p = f (q.ctxs p) :=
  Function.update_self _ _ _

theorem contents_fetchDone {pos cnt i : ℕ} {buf : List UInt8} (h : Running S (.fetchDone pos cnt i buf) c)
    (hc : Contents T orig c) (hs : T.Sound orig c.q (.fetchDone pos cnt i buf : Cmd κ))
    (he : fetchDone S c pos cnt i buf = .ok c') : Contents T orig c' := by
  rcases fetchDone_ok he with ⟨-, rfl⟩ | ⟨hi, p, d, q, rfl, rfl, rfl, hcase⟩
  · exact hc.push _ trigger_sound
  have hd := hs i le_rfl hi
  have hclaim : (slot maxActiveDescs (pos + i), DescState.fetching) ∈ (Cmd.fetchDone pos cnt i buf : Cmd κ).claims :=
    mem_rangeClaims.mpr ⟨⟨i, le_rfl, by omega, rfl⟩, rfl⟩
  rcases hcase with ⟨hprep, rfl⟩ | ⟨addr, len, hprep, rfl⟩
  · refine contents_slot h hc hclaim rfl rfl ?_ ?_ ?_
    · intro r hr
      simp only [QueueBase.setState, modify_of_ne _ _ hr]
    · intro x hx
      rcases List.mem_cons.mp hx with rfl | hx
      · exact .inr fun j hij hj => hs j (by omega) hj
      · exact .inl hx
    · simp only [descOf, dataOf, QueueBase.states, QueueBase.setState, modify_self]
      rw [hd] at hprep ⊢
      refine ⟨rfl, ?_⟩
      intro addr len hf
      rw [hprep] at hf
      cases hf
  · refine contents_slot h hc hclaim rfl rfl ?_ ?_ ?_
    · intro r hr
      simp only [modify_of_ne _ _ hr]
    · intro x hx
      rcases List.mem_cons.mp hx with rfl | hx
      · right
        simp only [Tracking.Sound, descOf, dataOf, modify_self]
        rw [hd] at hprep ⊢
        refine ⟨?_, hprep, Nat.zero_le _, ?_, T.load_nil _ _⟩
        · unfold growData
          split <;> rfl
        · unfold growData
          split
          · simp
          · omega
      · rcases List.mem_cons.mp hx with rfl | hx
        · exact .inr fun j hij hj => hs j (by omega) hj
        · exact .inl hx
    · have hst : ((c.q.modify (slot maxActiveDescs (pos + i)) fun x =>
          { x with state := .preparing, desc := slice buf (c.q.descLen * i) c.q.descLen }).modify
          (slot maxActiveDescs (pos + i)) (growData len)).states (slot maxActiveDescs (pos + i)) = .preparing := by
        simp only [QueueBase.states, modify_self]
        unfold growData
        split <;> rfl
      dsimp only
      rw [hst]
      trivial

theorem contents_dataFetch {p : Slot} {addr off total : ℕ} (ha : T.allowed env)
    (h : Running S (.dataFetch p addr off total) c) (hc : Contents T orig c)
    (hs : T.Sound orig c.q (.dataFetch p addr off total : Cmd κ)) (he : dataFetch env c p addr off total = .ok c') :
    Contents T orig c' := by
  obtain ⟨n, q, hn, rfl, hcase⟩ := dataFetch_ok he
  obtain ⟨hdesc, hprep, hoff, htotal, hload⟩ := hs
  have hle : off + n ≤ total := by omega
  have hload' := T.load_read ha hload (by omega : off + n ≤ (dataOf c.q.ctxs p).length)
  have hread : (env.read (addr + off) n).length = n := readBytes_length _ _ _
  have hlen : (overwrite (dataOf c.q.ctxs p) off (env.read (addr + off) n)).length = (dataOf c.q.ctxs p).length :=
    overwrite_length (by omega)
  have hclaim : (p, DescState.preparing) ∈ (Cmd.dataFetch p addr off total : Cmd κ).claims := by simp [Cmd.claims]
  rcases hcase with ⟨hlt, rfl⟩ | ⟨hge, rfl⟩
  · refine contents_slot h hc hclaim rfl rfl ?_ ?_ ?_
    · exact fun r hr => by simp only [modify_of_ne _ _ hr]
    · intro x hx
      rcases List.mem_cons.mp hx with rfl | hx
      · right
        simp only [Tracking.Sound, descOf, dataOf, modify_self]
        exact ⟨hdesc, hprep, hle, htotal.trans hlen.ge, hload'⟩
      · exact .inl hx
    · have hst : c.q.states p = .preparing := h.owned.state_eq (List.mem_append_left _ hclaim)
      simp only [descOf, dataOf, QueueBase.states, modify_self] at hst ⊢
      rw [hst]
      trivial
  · refine contents_slot h hc hclaim rfl rfl ?_ ?_ ?_
    · intro r hr
      simp only [QueueBase.setState, modify_of_ne _ _ hr]
    · intro x hx
      rcases List.mem_append.mp hx with hx | hx
      · exact .inr (trigger_sound x hx)
      · exact .inl hx
    · simp only [descOf, dataOf, QueueBase.states, QueueBase.setState, modify_self]
      refine ⟨hdesc, ?_⟩
      intro addr' len hf
      rw [hprep] at hf
      cases hf
      rw [show off + n = total by omega] at hload'
      exact ⟨htotal.trans hlen.ge, hload'⟩

theorem contents_dataWritten {p : Slot} (h : Running S (.dataWritten p) c) (hc : Contents T orig c)
    (hs : T.Sound orig c.q (.dataWritten p : Cmd κ)) (he : dataWritten c p = .ok c') : Contents T orig c' := by
  rw [dataWritten_ok he]
  have hclaim : (p, DescState.processing) ∈ (Cmd.dataWritten p : Cmd κ).claims := by simp [Cmd.claims]
  refine contents_slot h hc hclaim rfl rfl ?_ ?_ ?_
  · exact fun r hr => by simp only [QueueBase.setState, modify_of_ne _ _ hr]
  · intro x hx
    rcases List.mem_append.mp hx with hx | hx
    · exact .inr (trigger_sound x hx)
    · exact .inl hx
  · simp only [descOf, dataOf, QueueBase.states, QueueBase.setState, modify_self]
    exact hs

/-- The code of a subclass has run on the contexts `mine`, each of which it keeps or releases. -/
theorem contents_effect {e : Effect σ κ} {mine : List Slot} (hc : Contents T orig c)
    (ho : Owned Busy (c.stack.flatMap Cmd.claims ++ mine.map fun p => (p, .processing)) c.q.states)
    (hm : mine.Perm (e.released ++ S.held e.client)) (hlv : Leaves T orig mine c.q.ctxs e)
    (he : applyEffect env c e = .ok c') : Contents T orig c' := by
  obtain ⟨hd, hb⟩ := applyEffect_contents he
  have ha := applyEffect_applied he
  have hfree : ∀ x ∈ c.stack, ∀ p s, (p, s) ∈ x.claims → p ∉ mine := by
    intro x hx p s hx' hp
    exact ho.disjoint (List.mem_flatMap.mpr ⟨x, hx, hx'⟩) (List.mem_map_of_mem hp)
  have hmem : ∀ p, p ∈ e.released ∨ p ∈ S.held e.client → p ∈ mine := by
    intro p hp
    rw [hm.mem_iff]
    exact List.mem_append.mpr hp
  have hout : ∀ {f : Slot → List UInt8} {l : List (Slot × List UInt8)} {p : Slot}, (∀ x ∈ l, x.1 ∈ mine) →
      p ∉ mine → assigned f l p = f p := by
    intro f l p hl hp
    refine assigned_of_notMem ?_
    intro x hx hxp
    exact hp (hxp ▸ hl x hx)
  refine hc.update (fun p => p ∈ mine) (congrArg Ring.descLen ha.ring) ?_ hfree ?_ ?_ ?_
  · intro p hp
    rw [hd, hb, hout hlv.descs hp, hout hlv.datas hp]
    refine ⟨rfl, rfl, rfl, ?_⟩
    rcases ha.states p with ⟨-, hst⟩ | ⟨hf, -⟩
    · exact hst
    · exact absurd (hmem p (.inl (List.mem_append_left _ hf))) hp
  · intro x hx
    rw [ha.stack] at hx
    rcases List.mem_append.mp hx with hx | hx
    · right
      simp only [Effect.cmds, List.mem_append, List.mem_map, Option.mem_toList] at hx
      rcases hx with ⟨w, hw, rfl⟩ | ⟨k, -, rfl⟩
      · simp only [Tracking.Sound]
        rw [hd, hb]
        exact hlv.released _ (List.mem_append_right _ (List.mem_map.mpr ⟨w, Option.mem_toList.mpr hw, rfl⟩))
      · trivial
    · exact .inl hx
  · intro p hp
    have hst : c.q.states p = .processing := ho.state_eq (List.mem_append_right _ (List.mem_map_of_mem hp))
    rw [hd, hb]
    rcases ha.states p with ⟨-, hs⟩ | ⟨hf, -, hs⟩
    · rw [hs, hst]
      trivial
    · rw [hs]
      exact hlv.released p (List.mem_append_left _ hf)
  · intro p hp
    rw [ha.client] at hp
    rw [hd, hb]
    exact .inr (hlv.held p hp)

theorem held_nodup {cl : List (Slot × DescState)} {held : List Slot} {st : Slot → DescState}
    (h : Owned Busy (cl ++ held.map fun p => (p, .processing)) st) : held.Nodup := by
  have hn := h.nodup.sublist ((List.sublist_append_right _ _).map _)
  rwa [List.map_map, show Prod.fst ∘ (fun p : Slot => (p, DescState.processing)) = id from rfl, List.map_id] at hn

theorem contents_process {i j : ℕ} (hpf : T.Processes env c.client) (h : Running S (.processLoop i j) c)
    (hc : Contents T orig c)    (he : processLoop S env c i j = .ok c') : Contents T orig c' := by
  rcases processLoop_ok he with ⟨-, rfl⟩ | ⟨-, hp, p, q, e, rfl, rfl, hpr, hap⟩
  · exact hc
  have ho := h.claim_process hp
  dsimp only at ho
  rw [stateAt_eq] at hp
  have hready := hc.slots (slot maxActiveDescs (c.q.activeFirstPos + (i + j)))
  rw [hp] at hready
  have hnd := held_nodup ho
  have hkeeps : T.Keeps orig c.client
      (c.q.setState (slot maxActiveDescs (c.q.activeFirstPos + (i + j))) .processing).ctxs := by
    unfold Tracking.Keeps
    rw [descOf_setState, dataOf_setState]
    exact hc.held
  have hlv := hpf _ _ _ orig hpr hnd (by rw [descOf_setState, dataOf_setState]; exact hready) hkeeps
  refine contents_effect ?_ ?_ (S.process_held hpr) hlv hap
  · obtain ⟨hfree, hheld⟩ := h.unclaimed (D := fun r => r = slot maxActiveDescs (c.q.activeFirstPos + (i + j)))
      fun r hr => .inl (by rw [hr, hp]; simp [Busy])
    refine hc.update (fun r => r = slot maxActiveDescs (c.q.activeFirstPos + (i + j))) rfl ?_ hfree ?_ ?_ ?_
    · intro r hr
      refine ⟨rfl, by rw [descOf_setState], by rw [dataOf_setState], ?_⟩
      rw [states_setState]
      exact Function.update_of_ne hr _ _
    · intro x hx
      rcases List.mem_cons.mp hx with rfl | hx
      · exact .inr trivial
      · exact .inl hx
    · rintro r rfl
      dsimp only
      rw [states_setState, Function.update_self]
      trivial
    · exact fun r hr => .inl ⟨hr, hheld r hr⟩
  · exact ho

theorem contents_resume {k : κ} (hrf : T.Resumes env c.client k) (h : Running S (.resume k) c) (hc : Contents T orig c)
    (he : resume S env c k = .ok c') : Contents T orig c' := by
  obtain ⟨e, hr, hap⟩ := resume_ok he
  have ho : Owned Busy (c.stack.flatMap Cmd.claims ++ (S.held c.client).map fun p => (p, .processing)) c.q.states :=
    h.owned
  have hnd := held_nodup ho
  exact contents_effect hc ho (S.resume_held hr) (hrf _ _ orig hr hnd hc.held) hap

/-- One command, where a fetch brings new descriptors for the contexts that it takes. -/
theorem Contents.exec (ha : T.allowed env) (hpf : T.Processes env c.client)
    (hrf : ∀ k, cmd = .resume k → T.Resumes env c.client k) (hi : Inv S c) (hc : Contents T orig c)
    (hs : c.stack = cmd :: rest) (he : exec S env { c with stack := rest } cmd = .ok c') :
    Contents T (originAfter env c.q orig cmd) c' := by
  have hr := hi.running hs
  have hp := hc.pop hs
  have hcmd := hc.cmds cmd (by rw [hs]; exact List.mem_cons_self)
  cases cmd with
  | triggerFetch =>
    rcases triggerFetch_ok (c := { c with stack := rest }) hi.enabled he with ⟨hz, rfl⟩ | ⟨-, hl, rfl⟩
    · have horig : originAfter env c.q orig (.triggerFetch : Cmd κ) = orig := by
        funext p
        rw [originAfter, update_of_le (hz ▸ Nat.zero_le _)]
      rw [horig]
      exact hp
    · exact contents_fetch hr hp hl
  | triggerProcess =>
    cases he
    rw [triggerProcess_eq (c := { c with stack := rest }) hi.enabled]
    exact hp.push [_] (by simp [Tracking.Sound])
  | triggerWriteback =>
    rcases triggerWriteback_ok (c := { c with stack := rest }) hi.enabled he with ⟨-, rfl⟩ | ⟨-, rfl⟩
    · exact hp
    · exact contents_writeback hr hp _
  | processLoop i j => exact contents_process (c := { c with stack := rest }) hpf hr hp he
  | fetchDone pos cnt i buf => exact contents_fetchDone hr hp hcmd he
  | dataFetch p addr off total => exact contents_dataFetch ha hr hp hcmd he
  | dataWritten p => exact contents_dataWritten hr hp hcmd he
  | writebackDone pos n =>
    obtain ⟨hpos, hn⟩ := hi.settled.front pos n rest hs
    rw [(writebackDone_ok (c := { c with stack := rest }) hi.enabled he).2]
    exact contents_writebackDone hr hp hpos hn
  | resume k => exact contents_resume (c := { c with stack := rest }) (hrf k rfl) hr hp he

theorem Contents.start {base len : ℕ} (h : Enabled S base len c) : Contents T orig c := by
  refine ⟨?_, ?_, ?_⟩
  · rw [h.stack]
    exact trigger_sound
  · intro p
    rw [show c.q.states p = .empty from h.empty p]
    trivial
  · unfold Tracking.Keeps
    rw [h.held]
    simp

theorem Contents.tail (h : Contents T orig c) (t : ℕ) : Contents T orig (tailWrite c t) := by
  refine ⟨?_, h.slots, h.held⟩
  intro x hx
  rcases List.mem_append.mp hx with hx | hx
  · split at hx
    · exact trigger_sound x hx
    · cases hx
  · exact (h.cmds x hx).congr rfl fun _ _ _ => ⟨rfl, rfl, rfl⟩

theorem Contents.receive {x : ι} (h : Contents T orig c) (he : receive S env c x = .ok c') : Contents T orig c' := by
  obtain ⟨k, rfl⟩ := receive_ok he
  refine h.push _ ?_
  intro x hx
  obtain ⟨k, -, rfl⟩ := List.mem_map.mp hx
  trivial

end

end Vmux.DescriptorQueue
