import Mathlib.Tactic

namespace Vmux.CpuPinning

/-- `std::stoi` throws `outOfRange`. A range up to `INT_MAX` overflows the counter of its loop. -/
inductive Fault
  | invalid | outOfRange | overflow
deriving DecidableEq, Repr

/-- The tokens that `std::getline` reads, the first of which has begun with `token`. -/
def tokens (token : List Char) : List Char → List (List Char)
  | [] => if token = [] then [] else [token]
  | c :: cs => if c = ',' then token :: tokens [] cs else tokens (token ++ [c]) cs

def isValidNumber (s : List Char) : Bool := s ≠ [] && s.all Char.isDigit

def value (s : List Char) : ℕ := Nat.ofDigitChars 10 s 0

def intMax : ℕ := 2 ^ 31 - 1

def stoi (s : List Char) : Except Fault ℕ := if value s ≤ intMax then .ok (value s) else .error .outOfRange

def cpuSetsize : ℕ := 1024

/-- `CPU_SET` -/
def setCpu (set : Finset ℕ) (cpu : ℕ) : Finset ℕ := if cpu < cpuSetsize then insert cpu set else set

def setRange (set : Finset ℕ) (start last : ℕ) : Except Fault (Finset ℕ) :=
  if start > last then .error .invalid
  else if last = intMax then .error .overflow
  else .ok ((List.range' start (last + 1 - start)).foldl setCpu set)

def parseToken (set : Finset ℕ) (token : List Char) : Except Fault (Finset ℕ) :=
  if '-' ∈ token then
    let startStr := token.takeWhile (· ≠ '-')
    let endStr := (token.dropWhile (· ≠ '-')).drop 1
    if isValidNumber startStr && isValidNumber endStr then do
      let start ← stoi startStr
      let last ← stoi endStr
      setRange set start last
    else .error .invalid
  else if isValidNumber token then do
    let cpu ← stoi token
    .ok (setCpu set cpu)
  else .error .invalid

def parseCpuset (s : List Char) : Except Fault (Finset ℕ) := (tokens [] s).foldlM parseToken ∅

inductive Item
  | single (digits : List Char)
  | range (first last : List Char)

namespace Item

def text : Item → List Char
  | single digits => digits
  | range first last => first ++ '-' :: last

def Valid : Item → Prop
  | single digits => isValidNumber digits ∧ value digits ≤ intMax
  | range first last =>
    isValidNumber first ∧ isValidNumber last ∧ value first ≤ value last ∧ value last < intMax

def Names : Item → ℕ → Prop
  | single digits, cpu => cpu = value digits
  | range first last, cpu => value first ≤ cpu ∧ cpu ≤ value last

instance (item : Item) (cpu : ℕ) : Decidable (item.Names cpu) :=
  match item with
  | single digits => inferInstanceAs (Decidable (cpu = value digits))
  | range first last => inferInstanceAs (Decidable (value first ≤ cpu ∧ cpu ≤ value last))

def add (set : Finset ℕ) (item : Item) : Finset ℕ := set ∪ (Finset.range cpuSetsize).filter item.Names

end Item

inductive Spells : List Item → List Char → Prop
  | nil : Spells [] []
  | last (item : Item) : Spells [item] item.text
  | cons (item : Item) {items : List Item} {s : List Char} (h : Spells items s) :
      Spells (item :: items) (item.text ++ ',' :: s)

variable {item : Item} {items : List Item} {s token digits : List Char} {set set' : Finset ℕ} {c : Char}

theorem isDigit_of_valid (h : isValidNumber s = true) (hc : c ∈ s) : c.isDigit = true := by
  simp only [isValidNumber, Bool.and_eq_true, List.all_eq_true] at h
  exact h.2 c hc

theorem ne_nil_of_valid (h : isValidNumber s = true) : s ≠ [] := by
  simp only [isValidNumber, Bool.and_eq_true, decide_eq_true_eq] at h
  exact h.1

theorem dash_not_mem (h : isValidNumber s = true) : '-' ∉ s := fun hc => absurd (isDigit_of_valid h hc) (by decide)

theorem comma_not_mem (h : isValidNumber s = true) : ',' ∉ s := fun hc => absurd (isDigit_of_valid h hc) (by decide)

theorem Item.Valid.comma (h : item.Valid) : ',' ∉ item.text := by
  cases item with
  | single digits => exact comma_not_mem h.1
  | range first last => simp [Item.text, comma_not_mem h.1, comma_not_mem h.2.1]

theorem Item.Valid.ne_nil (h : item.Valid) : item.text ≠ [] := by
  cases item with
  | single digits => exact ne_nil_of_valid h.1
  | range first last => simp [Item.text]

theorem tokens_text (h : ',' ∉ s) (hn : token ++ s ≠ []) : tokens token s = [token ++ s] := by
  induction s generalizing token with
  | nil =>
    rw [List.append_nil] at hn ⊢
    rw [tokens, if_neg hn]
  | cons c s ih =>
    obtain ⟨hc, hs⟩ := List.ne_and_not_mem_of_not_mem_cons h
    rw [tokens, if_neg (Ne.symm hc), ih hs (by simp)]
    simp

theorem tokens_comma (h : ',' ∉ s) (rest : List Char) :
    tokens token (s ++ ',' :: rest) = (token ++ s) :: tokens [] rest := by
  induction s generalizing token with
  | nil => simp [tokens]
  | cons c s ih =>
    obtain ⟨hc, hs⟩ := List.ne_and_not_mem_of_not_mem_cons h
    rw [List.cons_append, tokens, if_neg (Ne.symm hc), ih hs]
    simp

theorem tokens_eq_nil (h : tokens token s = []) : s = [] := by
  induction s generalizing token with
  | nil => rfl
  | cons c s ih =>
    rw [tokens] at h
    split at h
    · cases h
    · obtain rfl := ih h
      simp [tokens] at h

theorem tokens_eq_cons {t : List Char} {ts : List (List Char)} (h : tokens token s = t :: ts) :
    (t = token ++ s ∧ ts = []) ∨ ∃ a rest, s = a ++ ',' :: rest ∧ t = token ++ a ∧ ts = tokens [] rest := by
  induction s generalizing token with
  | nil =>
    rw [tokens] at h
    split at h
    · cases h
    · obtain ⟨rfl, rfl⟩ := List.cons.inj h
      exact .inl ⟨(List.append_nil _).symm, rfl⟩
  | cons c s ih =>
    rw [tokens] at h
    split at h
    · rename_i hc
      obtain ⟨rfl, rfl⟩ := List.cons.inj h
      exact .inr ⟨[], s, by rw [hc, List.nil_append], (List.append_nil _).symm, rfl⟩
    · rcases ih h with ⟨rfl, rfl⟩ | ⟨a, rest, rfl, rfl, rfl⟩
      · exact .inl ⟨by simp, rfl⟩
      · exact .inr ⟨c :: a, rest, rfl, by simp, rfl⟩

theorem spells_iff (h : ∀ item ∈ items, item.Valid) : Spells items s ↔ items.map Item.text = tokens [] s := by
  constructor
  · intro hs
    induction hs with
    | nil => rfl
    | last item =>
      have hv := h item List.mem_cons_self
      rw [tokens_text hv.comma (by simpa using hv.ne_nil)]
      rfl
    | cons item _ ih =>
      rw [tokens_comma (h item List.mem_cons_self).comma, List.map_cons,
        ih fun x hx => h x (List.mem_cons_of_mem _ hx)]
      rfl
  · intro hs
    induction items generalizing s with
    | nil =>
      obtain rfl := tokens_eq_nil hs.symm
      exact .nil
    | cons item items ih =>
      rcases tokens_eq_cons hs.symm with ⟨ht, hts⟩ | ⟨a, rest, rfl, ht, hts⟩
      · obtain rfl := List.map_eq_nil_iff.mp hts
        rw [List.nil_append] at ht
        exact ht ▸ .last item
      · rw [List.nil_append] at ht
        exact ht ▸ .cons item (ih (fun x hx => h x (List.mem_cons_of_mem _ hx)) hts)

theorem setCpu_eq (set : Finset ℕ) (cpu : ℕ) :
    setCpu set cpu = set ∪ (Finset.range cpuSetsize).filter (· = cpu) := by
  ext x
  rw [setCpu]
  split <;> simp <;> grind

theorem foldl_setCpu (set : Finset ℕ) (start n : ℕ) : (List.range' start n).foldl setCpu set =
    set ∪ (Finset.range cpuSetsize).filter fun cpu => start ≤ cpu ∧ cpu < start + n := by
  induction n generalizing start set with
  | zero =>
    ext x
    simp
  | succ n ih =>
    rw [List.range'_succ, List.foldl_cons, ih, setCpu_eq]
    ext x
    simp only [Finset.mem_union, Finset.mem_filter, Finset.mem_range]
    grind

theorem stoi_of_le (h : value s ≤ intMax) : stoi s = .ok (value s) := if_pos h

theorem le_of_stoi {n : ℕ} (h : stoi s = .ok n) : n = value s ∧ value s ≤ intMax := by
  rw [stoi] at h
  split at h
  · rename_i hle
    exact ⟨(Except.ok.inj h).symm, hle⟩
  · cases h

theorem split_dash {first : List Char} (h : '-' ∉ first) (last : List Char) :
    (first ++ '-' :: last).takeWhile (· ≠ '-') = first ∧
      ((first ++ '-' :: last).dropWhile (· ≠ '-')).drop 1 = last := by
  have hall : ∀ c ∈ first, decide (c ≠ '-') = true := by
    intro c hc
    rw [decide_eq_true_eq]
    rintro rfl
    exact h hc
  rw [List.takeWhile_append_of_pos hall, List.dropWhile_append_of_pos hall]
  simp

theorem join_dash (h : '-' ∈ token) :
    token.takeWhile (· ≠ '-') ++ '-' :: (token.dropWhile (· ≠ '-')).drop 1 = token := by
  induction token with
  | nil => cases h
  | cons c token ih =>
    by_cases hc : c = '-'
    · simp [hc]
    · have hmem : '-' ∈ token := List.mem_of_ne_of_mem (Ne.symm hc) h
      simpa [hc] using ih hmem

theorem parseToken_text (h : item.Valid) (set : Finset ℕ) : parseToken set item.text = .ok (item.add set) := by
  cases item with
  | single digits =>
    rw [Item.text, parseToken, if_neg (dash_not_mem h.1), if_pos h.1, stoi_of_le h.2]
    exact congrArg Except.ok (setCpu_eq set _)
  | range first last =>
    obtain ⟨hf, hl, hle, hlt⟩ := h
    obtain ⟨htake, hdrop⟩ := split_dash (dash_not_mem hf) last
    have hmem : '-' ∈ first ++ '-' :: last := by simp
    rw [Item.text, parseToken, if_pos hmem]
    dsimp only
    rw [htake, hdrop, hf, hl, if_pos (by rfl), stoi_of_le (by omega), stoi_of_le (by omega)]
    change setRange set (value first) (value last) = _
    have hend : value first + (value last + 1 - value first) = value last + 1 := by omega
    rw [setRange, if_neg (by omega), if_neg (by omega), foldl_setCpu, hend]
    refine congrArg Except.ok ?_
    ext cpu
    simp [Item.add, Item.Names]

theorem text_of_parseToken (h : parseToken set token = .ok set') :
    ∃ item : Item, item.Valid ∧ item.text = token := by
  rw [parseToken] at h
  split at h
  · rename_i hmem
    dsimp only at h
    split at h
    · rename_i hv
      obtain ⟨hf, hl⟩ := Bool.and_eq_true_iff.mp hv
      cases hs : stoi (token.takeWhile (· ≠ '-')) with
      | error f => rw [hs] at h; cases h
      | ok start =>
        cases he : stoi ((token.dropWhile (· ≠ '-')).drop 1) with
        | error f => rw [hs, he] at h; cases h
        | ok last =>
          rw [hs, he] at h
          change setRange set start last = _ at h
          rw [setRange] at h
          obtain ⟨rfl, -⟩ := le_of_stoi hs
          obtain ⟨rfl, hle⟩ := le_of_stoi he
          split at h
          · cases h
          · split at h
            · cases h
            · exact ⟨.range _ _, ⟨hf, hl, by omega, by omega⟩, join_dash hmem⟩
    · cases h
  · split at h
    · rename_i hv
      cases hst : stoi token with
      | error f => rw [hst] at h; cases h
      | ok n => exact ⟨.single token, ⟨hv, (le_of_stoi hst).2⟩, rfl⟩
    · cases h

theorem parseToken_iff : parseToken set token = .ok set' ↔
    ∃ item : Item, item.Valid ∧ item.text = token ∧ set' = item.add set := by
  constructor
  · intro h
    obtain ⟨item, hv, rfl⟩ := text_of_parseToken h
    rw [parseToken_text hv] at h
    exact ⟨item, hv, rfl, (Except.ok.inj h).symm⟩
  · rintro ⟨item, hv, rfl, rfl⟩
    exact parseToken_text hv set

theorem foldlM_iff {ts : List (List Char)} : ts.foldlM parseToken set = .ok set' ↔
    ∃ items : List Item, (∀ item ∈ items, item.Valid) ∧ items.map Item.text = ts ∧ set' = items.foldl Item.add set := by
  induction ts generalizing set with
  | nil =>
    constructor
    · intro h
      exact ⟨[], nofun, rfl, (Except.ok.inj h).symm⟩
    · rintro ⟨items, -, hts, rfl⟩
      obtain rfl := List.map_eq_nil_iff.mp hts
      rfl
  | cons t ts ih =>
    rw [List.foldlM_cons]
    constructor
    · intro h
      cases ht : parseToken set t with
      | error f => rw [ht] at h; cases h
      | ok mid =>
        rw [ht] at h
        obtain ⟨item, hv, rfl, rfl⟩ := parseToken_iff.mp ht
        obtain ⟨items, hvs, rfl, rfl⟩ := ih.mp h
        exact ⟨item :: items, List.forall_mem_cons.mpr ⟨hv, hvs⟩, rfl, rfl⟩
    · rintro ⟨items, hvs, hts, rfl⟩
      obtain ⟨item, items, rfl, rfl, rfl⟩ := List.map_eq_cons_iff.mp hts
      obtain ⟨hv, hvs⟩ := List.forall_mem_cons.mp hvs
      rw [parseToken_text hv]
      exact ih.mpr ⟨items, hvs, rfl, rfl⟩

theorem foldl_add (items : List Item) (set : Finset ℕ) : items.foldl Item.add set =
    set ∪ (Finset.range cpuSetsize).filter fun cpu => ∃ item ∈ items, item.Names cpu := by
  induction items generalizing set with
  | nil =>
    ext cpu
    simp
  | cons item items ih =>
    rw [List.foldl_cons, ih]
    ext cpu
    simp only [Item.add, Finset.mem_union, Finset.mem_filter, Finset.mem_range, List.mem_cons, exists_eq_or_imp]
    grind

/-- What is accepted, and the set it stands for: CPUs from `cpuSetsize` on are left out. -/
theorem parseCpuset_iff (s : List Char) (set : Finset ℕ) : parseCpuset s = .ok set ↔
    ∃ items, (∀ item ∈ items, item.Valid) ∧ Spells items s ∧
      ∀ cpu, cpu ∈ set ↔ cpu < cpuSetsize ∧ ∃ item ∈ items, item.Names cpu := by
  rw [parseCpuset, foldlM_iff]
  apply exists_congr
  intro items
  apply and_congr_right
  intro hv
  rw [spells_iff hv, foldl_add, Finset.ext_iff]
  simp

end Vmux.CpuPinning
