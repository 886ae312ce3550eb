import Vmux.Bytes

namespace Vmux.DescriptorRing

open Bytes

abbrev Memory := ℕ → UInt8

def load (mem : Memory) (addr n : ℕ) : ℕ := leNat (readBytes mem addr n)

def store (mem : Memory) (addr : ℕ) (bs : List UInt8) : Memory :=
  fun x => if addr ≤ x ∧ x < addr + bs.length then bs.getD (x - addr) 0 else mem x

/-- A ring of `2 ^ bits` descriptors: buffer address, buffer length, flags, and bytes of no use here. -/
structure Ring where
  base : ℕ
  bits : ℕ
deriving DecidableEq, Repr

def descSize : ℕ := 0x20

namespace Ring

variable (r : Ring)

def count : ℕ := 2 ^ r.bits

def idxMask : ℕ := 2 ^ r.bits - 1

def slot (idx : ℕ) : ℕ := idx &&& r.idxMask

def desc (i : ℕ) : ℕ := r.base + i * descSize

variable (mem : Memory)

def iova (i : ℕ) : ℕ := load mem (r.desc i) 8

def len (i : ℕ) : ℕ := load mem (r.desc i + 8) 2

def flags (i : ℕ) : ℕ := load mem (r.desc i + 10) 2

def avail (i : ℕ) : Bool := r.flags mem i % 2 = 1

/-- Write the flags back without the bit that says the descriptor is available. -/
def release (i flags : ℕ) : Memory := store mem (r.desc i + 10) (leBytes 2 (flags / 2 * 2))

def setLen (i n : ℕ) : Memory := store mem (r.desc i + 8) (leBytes 2 n)

end Ring

variable {r : Ring} {mem mem' : Memory} {i j : ℕ}

theorem count_pos (r : Ring) : 0 < r.count := Nat.two_pow_pos r.bits

theorem slot_eq_mod (r : Ring) (idx : ℕ) : r.slot idx = idx % r.count := Nat.and_two_pow_sub_one_eq_mod idx r.bits

theorem slot_wrap (hb : r.bits ≤ 16) (n : ℕ) : r.slot (n % 2 ^ 16) = n % r.count := by
  rw [slot_eq_mod]
  exact Nat.mod_mod_of_dvd n (Nat.pow_dvd_pow 2 hb)

theorem mod_ne_of_lt {n c k : ℕ} (h1 : c < k) (h2 : k < c + n) : k % n ≠ c % n := by
  intro he
  have hd : n ∣ k - c := Nat.dvd_of_mod_eq_zero (Nat.sub_mod_eq_zero_of_mod_eq he)
  have hle := Nat.le_of_dvd (by omega) hd
  omega

theorem load_congr {addr n : ℕ} (h : ∀ x, addr ≤ x → x < addr + n → mem' x = mem x) :
    load mem' addr n = load mem addr n := by
  have hbytes : readBytes mem' addr n = readBytes mem addr n := by
    apply List.map_congr_left
    intro k hk
    have hlt := List.mem_range.mp hk
    exact h _ (by omega) (by omega)
  rw [load, load, hbytes]

theorem store_outside {addr x : ℕ} {bs : List UInt8} (h : x < addr ∨ addr + bs.length ≤ x) :
    store mem addr bs x = mem x := by
  unfold store
  rw [if_neg (by omega)]

def SameDesc (r : Ring) (mem mem' : Memory) (i : ℕ) : Prop :=
  ∀ x, r.desc i ≤ x → x < r.desc i + descSize → mem' x = mem x

namespace SameDesc

theorem iova_eq (h : SameDesc r mem mem' i) : r.iova mem' i = r.iova mem i := by
  have hsize : descSize = 32 := rfl
  exact load_congr fun x h1 h2 => h x h1 (by omega)

theorem len_eq (h : SameDesc r mem mem' i) : r.len mem' i = r.len mem i := by
  have hsize : descSize = 32 := rfl
  exact load_congr fun x h1 h2 => h x (by omega) (by omega)

theorem flags_eq (h : SameDesc r mem mem' i) : r.flags mem' i = r.flags mem i := by
  have hsize : descSize = 32 := rfl
  exact load_congr fun x h1 h2 => h x (by omega) (by omega)

theorem avail_eq (h : SameDesc r mem mem' i) : r.avail mem' i = r.avail mem i := by
  rw [Ring.avail, Ring.avail, h.flags_eq]

end SameDesc

theorem desc_apart (r : Ring) (h : i ≠ j) : r.desc i + descSize ≤ r.desc j ∨ r.desc j + descSize ≤ r.desc i := by
  have hsize : descSize = 32 := rfl
  simp only [Ring.desc, hsize]
  omega

theorem desc_in_ring (h : i < r.count) : r.base ≤ r.desc i ∧ r.desc i + descSize ≤ r.base + r.count * descSize := by
  have hsize : descSize = 32 := rfl
  simp only [Ring.desc, hsize]
  omega

theorem leBytes_two (v : ℕ) : leBytes 2 v = [UInt8.ofNat (v % 256), UInt8.ofNat (v / 256 % 256)] := rfl

theorem flags_eq_bytes (r : Ring) (mem : Memory) (i : ℕ) :
    r.flags mem i = (mem (r.desc i + 10)).toNat + 256 * (mem (r.desc i + 11)).toNat := by
  simp [Ring.flags, load, readBytes, leNat, List.range_succ]

theorem and_low (b : UInt8) : b &&& 0xFE = UInt8.ofNat (b.toNat / 2 * 2) := by
  have hb := b.toNat_lt
  have hall : ∀ n, n < 256 → n &&& 254 = n / 2 * 2 := by decide +kernel
  apply UInt8.toNat_inj.mp
  rw [UInt8.toNat_and, UInt8.toNat_ofNat', Nat.mod_eq_of_lt (by omega)]
  exact hall _ hb

theorem release_eq {flags : ℕ} (h : flags = r.flags mem i) :
    r.release mem i flags = Function.update mem (r.desc i + 10) (mem (r.desc i + 10) &&& 0xFE) := by
  have h0 := (mem (r.desc i + 10)).toNat_lt
  have h1 := (mem (r.desc i + 11)).toNat_lt
  rw [flags_eq_bytes] at h
  funext x
  unfold Ring.release store
  rw [leBytes_two]
  by_cases hx : x = r.desc i + 10
  · subst hx
    rw [Function.update_self, if_pos (by simp), and_low, Nat.sub_self]
    change UInt8.ofNat _ = _
    congr 1
    omega
  · rw [Function.update_of_ne hx]
    by_cases hx' : x = r.desc i + 11
    · subst hx'
      rw [if_pos (by simp), Nat.add_sub_add_left]
      change UInt8.ofNat _ = _
      apply UInt8.toNat_inj.mp
      rw [UInt8.toNat_ofNat']
      omega
    · rw [if_neg]
      simp only [List.length_cons, List.length_nil]
      omega

theorem avail_update (r : Ring) (mem : Memory) (i : ℕ) :
    r.avail (Function.update mem (r.desc i + 10) (mem (r.desc i + 10) &&& 0xFE)) i = false := by
  have h0 := (mem (r.desc i + 10)).toNat_lt
  simp only [Ring.avail, flags_eq_bytes, Function.update_self, decide_eq_false_iff_not, and_low, UInt8.toNat_ofNat']
  omega

theorem sameDesc_outside {lo hi : ℕ} (hm : ∀ x, x < lo ∨ hi ≤ x → mem' x = mem x)
    (h : hi ≤ r.desc i ∨ r.desc i + descSize ≤ lo) : SameDesc r mem mem' i := by
  intro x h1 h2
  apply hm
  omega

theorem setLen_outside (r : Ring) (mem : Memory) (i n : ℕ) {x : ℕ} (h : x < r.desc i ∨ r.desc i + descSize ≤ x) :
    r.setLen mem i n x = mem x := by
  have hsize : descSize = 32 := rfl
  have hlen : (leBytes 2 n).length = 2 := rfl
  apply store_outside
  omega

theorem flags_setLen (r : Ring) (mem : Memory) (i n : ℕ) : r.flags (r.setLen mem i n) i = r.flags mem i := by
  have hlen : (leBytes 2 n).length = 2 := rfl
  exact load_congr fun x h1 h2 => store_outside (.inr (by omega))

theorem avail_setLen (r : Ring) (mem : Memory) (i n : ℕ) : r.avail (r.setLen mem i n) i = r.avail mem i := by
  rw [Ring.avail, Ring.avail, flags_setLen]

theorem iova_setLen (r : Ring) (mem : Memory) (i n : ℕ) : r.iova (r.setLen mem i n) i = r.iova mem i :=
  load_congr fun x h1 h2 => store_outside (.inl (by omega))

theorem len_eq_bytes (r : Ring) (mem : Memory) (i : ℕ) :
    r.len mem i = (mem (r.desc i + 8)).toNat + 256 * (mem (r.desc i + 9)).toNat := by
  simp [Ring.len, load, readBytes, leNat, List.range_succ]

theorem len_setLen (r : Ring) (mem : Memory) (i : ℕ) {n : ℕ} (hn : n < 2 ^ 16) : r.len (r.setLen mem i n) i = n := by
  have h0 : r.setLen mem i n (r.desc i + 8) = UInt8.ofNat (n % 256) := by
    unfold Ring.setLen store
    rw [leBytes_two, if_pos (by simp), Nat.sub_self]
    rfl
  have h1 : r.setLen mem i n (r.desc i + 9) = UInt8.ofNat (n / 256 % 256) := by
    unfold Ring.setLen store
    rw [leBytes_two, if_pos (by simp), Nat.add_sub_add_left]
    rfl
  rw [len_eq_bytes, h0, h1, UInt8.toNat_ofNat', UInt8.toNat_ofNat']
  omega

theorem len_update (r : Ring) (mem : Memory) (i : ℕ) (b : UInt8) :
    r.len (Function.update mem (r.desc i + 10) b) i = r.len mem i := by
  apply load_congr
  intro x h1 h2
  exact Function.update_of_ne (by omega) _ _

theorem update_outside (r : Ring) (mem : Memory) (i : ℕ) (b : UInt8) {x : ℕ}
    (h : x < r.desc i ∨ r.desc i + descSize ≤ x) : Function.update mem (r.desc i + 10) b x = mem x := by
  have hsize : descSize = 32 := rfl
  exact Function.update_of_ne (by omega) _ _

theorem sameDesc_update (r : Ring) (mem : Memory) (b : UInt8) (h : j ≠ i) :
    SameDesc r mem (Function.update mem (r.desc i + 10) b) j := by
  intro x h1 h2
  have hsize : descSize = 32 := rfl
  have hne : x ≠ r.desc i + 10 := by
    rcases desc_apart r h with h | h
    · omega
    · omega
  exact Function.update_of_ne hne _ _

end Vmux.DescriptorRing
