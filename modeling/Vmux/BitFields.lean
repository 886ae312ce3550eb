import Vmux.Bytes

namespace Vmux.BitFields

open Bytes

/-- The bits of a number from `lsb` on, `width` of them. -/
def field (n lsb width : ℕ) : ℕ := n / 2 ^ lsb % 2 ^ width

def setField (n lsb width v : ℕ) : ℕ :=
  n % 2 ^ lsb ||| (v % 2 ^ width) <<< lsb ||| (n / 2 ^ (lsb + width)) <<< (lsb + width)

theorem testBit_field (n lsb width i : ℕ) :
    (field n lsb width).testBit i = (decide (i < width) && n.testBit (i + lsb)) := by
  simp [field, Nat.testBit_mod_two_pow, Nat.testBit_div_two_pow]

theorem testBit_setField (n lsb width v i : ℕ) :
    (setField n lsb width v).testBit i =
      if lsb ≤ i ∧ i < lsb + width then v.testBit (i - lsb) else n.testBit i := by
  simp only [setField, Nat.testBit_or, Nat.testBit_mod_two_pow, Nat.testBit_shiftLeft, Nat.testBit_div_two_pow]
  by_cases hlow : i < lsb
  · have h1 : ¬lsb ≤ i := by omega
    have h2 : ¬lsb + width ≤ i := by omega
    simp [hlow, h1, h2]
  · by_cases hmid : i < lsb + width
    · have h1 : lsb ≤ i := by omega
      have h2 : ¬lsb + width ≤ i := by omega
      have h3 : i - lsb < width := by omega
      simp [hlow, hmid, h1, h2, h3]
    · have h1 : lsb + width ≤ i := by omega
      have h2 : ¬i - lsb < width := by omega
      have h3 : i - (lsb + width) + (lsb + width) = i := by omega
      simp [hlow, hmid, h1, h2, h3]

theorem field_setField_self (n lsb width v : ℕ) : field (setField n lsb width v) lsb width = v % 2 ^ width := by
  apply Nat.eq_of_testBit_eq
  intro i
  rw [testBit_field, testBit_setField, Nat.testBit_mod_two_pow, Nat.add_sub_cancel]
  by_cases hi : i < width
  · have hin : lsb ≤ i + lsb ∧ i + lsb < lsb + width := by omega
    rw [if_pos hin]
  · simp [hi]

theorem field_setField_apart {n lsb width v lsb' width' : ℕ} (h : lsb + width ≤ lsb' ∨ lsb' + width' ≤ lsb) :
    field (setField n lsb width v) lsb' width' = field n lsb' width' := by
  apply Nat.eq_of_testBit_eq
  intro i
  rw [testBit_field, testBit_field, testBit_setField]
  by_cases hi : i < width'
  · have hout : ¬(lsb ≤ i + lsb' ∧ i + lsb' < lsb + width) := by omega
    rw [if_neg hout]
  · simp [hi]

theorem field_field {n lsb width k w : ℕ} (h : k + w ≤ width) : field (field n lsb width) k w = field n (lsb + k) w := by
  apply Nat.eq_of_testBit_eq
  intro i
  rw [testBit_field, testBit_field, testBit_field]
  by_cases hi : i < w
  · have hk : i + k < width := by omega
    simp [hi, hk, Nat.add_comm lsb k, Nat.add_assoc]
  · simp [hi]

theorem field_add (n lsb a b : ℕ) : field n lsb (a + b) = field n lsb a + 2 ^ a * field n (lsb + a) b := by
  rw [field, field, field, pow_add, pow_add, Nat.mod_mul, Nat.div_div_eq_div_mul]

/-- A value and the bits it is to be placed in. -/
structure Field where
  lsb : ℕ
  width : ℕ
  value : ℕ

def Field.Apart (a b : Field) : Prop := a.lsb + a.width ≤ b.lsb ∨ b.lsb + b.width ≤ a.lsb

def pack (n : ℕ) (fs : List Field) : ℕ := fs.foldl (fun n f => setField n f.lsb f.width f.value) n

theorem field_pack_apart {fs : List Field} {f : Field} (h : ∀ g ∈ fs, g.Apart f) (n : ℕ) :
    field (pack n fs) f.lsb f.width = field n f.lsb f.width := by
  induction fs generalizing n with
  | nil => rfl
  | cons g fs ih =>
    have hfs : ∀ x ∈ fs, x.Apart f := fun x hx => h x (List.mem_cons_of_mem _ hx)
    rw [pack, List.foldl_cons, ← pack, ih hfs]
    exact field_setField_apart (h g List.mem_cons_self)

theorem field_pack {fs : List Field} (h : fs.Pairwise fun a b => b.Apart a) {f : Field} (hf : f ∈ fs) (n : ℕ) :
    field (pack n fs) f.lsb f.width = f.value % 2 ^ f.width := by
  induction fs generalizing n with
  | nil => cases hf
  | cons g fs ih =>
    obtain ⟨hg, hfs⟩ := List.pairwise_cons.mp h
    rw [pack, List.foldl_cons, ← pack]
    rcases List.mem_cons.mp hf with rfl | hf
    · rw [field_pack_apart hg]
      exact field_setField_self _ _ _ _
    · exact ih hfs hf _

theorem two_pow_eight_mul (n : ℕ) : 2 ^ (8 * n) = 256 ^ n := by
  rw [Nat.pow_mul]

theorem leNat_drop (l : List UInt8) (off : ℕ) : leNat (l.drop off) = leNat l / 2 ^ (8 * off) := by
  have h := leNat_append (l.take off) (l.drop off)
  rw [List.take_append_drop] at h
  rw [two_pow_eight_mul]
  by_cases hoff : off ≤ l.length
  · have hlt := leNat_lt (l.take off)
    rw [List.length_take_of_le hoff] at h hlt
    rw [h, Nat.add_mul_div_left _ _ (by positivity), Nat.div_eq_of_lt hlt, Nat.zero_add]
  · have hlt := leNat_lt l
    have hle : 256 ^ l.length ≤ 256 ^ off := Nat.pow_le_pow_right (by decide) (by omega)
    rw [Nat.div_eq_of_lt (hlt.trans_le hle), List.drop_eq_nil_of_le (by omega)]
    rfl

theorem leNat_take (l : List UInt8) (n : ℕ) : leNat (l.take n) = leNat l % 2 ^ (8 * n) := by
  have h := leNat_append (l.take n) (l.drop n)
  rw [List.take_append_drop] at h
  rw [two_pow_eight_mul]
  by_cases hn : n ≤ l.length
  · have hlt := leNat_lt (l.take n)
    rw [List.length_take_of_le hn] at h hlt
    rw [h, Nat.add_mul_mod_self_left, Nat.mod_eq_of_lt hlt]
  · have hlt := leNat_lt l
    have hle : 256 ^ l.length ≤ 256 ^ n := Nat.pow_le_pow_right (by decide) (by omega)
    rw [Nat.mod_eq_of_lt (hlt.trans_le hle), List.take_of_length_le (by omega)]

theorem leNat_slice (l : List UInt8) (off n : ℕ) : leNat (slice l off n) = field (leNat l) (8 * off) (8 * n) := by
  rw [slice, leNat_take, leNat_drop, field]

theorem field_slice {l : List UInt8} {off n k w : ℕ} (h : k + w ≤ 8 * n) :
    field (leNat (slice l off n)) k w = field (leNat l) (8 * off + k) w := by
  rw [leNat_slice, field_field h]

theorem setField_eq_add (n lsb width v : ℕ) :
    setField n lsb width v = n % 2 ^ lsb + 2 ^ lsb * (v % 2 ^ width) + 2 ^ (lsb + width) * (n / 2 ^ (lsb + width)) := by
  have hlow : n % 2 ^ lsb < 2 ^ lsb := Nat.mod_lt _ (by positivity)
  have hmid : (v % 2 ^ width) <<< lsb + n % 2 ^ lsb < 2 ^ (lsb + width) := by
    have hv : v % 2 ^ width + 1 ≤ 2 ^ width := Nat.mod_lt _ (by positivity)
    have hmul := Nat.mul_le_mul_left (2 ^ lsb) hv
    rw [← pow_add, Nat.mul_add, Nat.mul_one] at hmul
    rw [Nat.shiftLeft_eq, Nat.mul_comm]
    omega
  rw [setField, Nat.or_comm (n % 2 ^ lsb), ← Nat.shiftLeft_add_eq_or_of_lt hlow, Nat.or_comm,
    ← Nat.shiftLeft_add_eq_or_of_lt hmid, Nat.shiftLeft_eq, Nat.shiftLeft_eq]
  ring

theorem leNat_overwrite {l : List UInt8} {off : ℕ} {bs : List UInt8} (h : off + bs.length ≤ l.length) :
    leNat (overwrite l off bs) = setField (leNat l) (8 * off) (8 * bs.length) (leNat bs) := by
  have hbs : leNat bs % 2 ^ (8 * bs.length) = leNat bs := by
    rw [two_pow_eight_mul, Nat.mod_eq_of_lt (leNat_lt bs)]
  rw [setField_eq_add, hbs, ← leNat_take, ← Nat.mul_add, ← leNat_drop, overwrite, leNat_append, leNat_append,
    List.length_append, List.length_take_of_le (by omega), two_pow_eight_mul, two_pow_eight_mul]

end Vmux.BitFields
