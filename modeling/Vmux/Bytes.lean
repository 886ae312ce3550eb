import Mathlib.Data.List.Basic
import Mathlib.Tactic

namespace Vmux.Bytes

/-- Little-endian value of a byte string. -/
def leNat : List UInt8 → ℕ
  | [] => 0
  | b :: bs => b.toNat + 256 * leNat bs

def leBytes : ℕ → ℕ → List UInt8
  | 0, _ => []
  | n + 1, v => UInt8.ofNat (v % 256) :: leBytes n (v / 256)

def beNat (l : List UInt8) : ℕ := leNat l.reverse

def beBytes (n v : ℕ) : List UInt8 := (leBytes n v).reverse

def slice (l : List UInt8) (off n : ℕ) : List UInt8 := (l.drop off).take n

/-- `memcpy(l + off, bs, bs.length)`. -/
def overwrite (l : List UInt8) (off : ℕ) (bs : List UInt8) : List UInt8 :=
  l.take off ++ bs ++ l.drop (off + bs.length)

def get8 (l : List UInt8) (off : ℕ) : ℕ := leNat (slice l off 1)
def get16 (l : List UInt8) (off : ℕ) : ℕ := leNat (slice l off 2)
def get32 (l : List UInt8) (off : ℕ) : ℕ := leNat (slice l off 4)
def get64 (l : List UInt8) (off : ℕ) : ℕ := leNat (slice l off 8)

def put8 (off v : ℕ) (l : List UInt8) : List UInt8 := overwrite l off (leBytes 1 v)
def put16 (off v : ℕ) (l : List UInt8) : List UInt8 := overwrite l off (leBytes 2 v)
def put32 (off v : ℕ) (l : List UInt8) : List UInt8 := overwrite l off (leBytes 4 v)
def put64 (off v : ℕ) (l : List UInt8) : List UInt8 := overwrite l off (leBytes 8 v)

/-- The bytes of a memory from an address on. -/
def readBytes (mem : ℕ → UInt8) (addr n : ℕ) : List UInt8 := (List.range n).map fun i => mem (addr + i)

theorem leBytes_length (n v : ℕ) : (leBytes n v).length = n := by
  induction n generalizing v with
  | zero => rfl
  | succ n ih => simp [leBytes, ih]

theorem overwrite_length {l : List UInt8} {off : ℕ} {bs : List UInt8} (h : off + bs.length ≤ l.length) :
    (overwrite l off bs).length = l.length := by
  simp [overwrite]
  omega

theorem le_overwrite_length {l : List UInt8} {off : ℕ} {bs : List UInt8} (h : off ≤ l.length) :
    off + bs.length ≤ (overwrite l off bs).length := by
  rw [overwrite, List.length_append, List.length_append, List.length_take_of_le h]
  omega

theorem slice_length {l : List UInt8} {off n : ℕ} (h : off + n ≤ l.length) : (slice l off n).length = n := by
  simp [slice]
  omega

theorem slice_add (l : List UInt8) (off m n : ℕ) : slice l off (m + n) = slice l off m ++ slice l (off + m) n := by
  simp only [slice, List.take_add, List.drop_drop]

theorem slice_append_left {l r : List UInt8} {off n : ℕ} (h : off + n ≤ l.length) :
    slice (l ++ r) off n = slice l off n := by
  unfold slice
  rw [List.drop_append_of_le_length (by omega), List.take_append_of_le_length (by rw [List.length_drop]; omega)]

theorem slice_append_right (l r : List UInt8) (off n : ℕ) : slice (l ++ r) (l.length + off) n = slice r off n := by
  rw [slice, slice, List.drop_length_add_append]

theorem slice_take {l : List UInt8} {off n k : ℕ} (h : off + n ≤ k) : slice (l.take k) off n = slice l off n := by
  rw [slice, slice, List.drop_take, List.take_take, min_eq_left (by omega)]

theorem readBytes_length (mem : ℕ → UInt8) (addr n : ℕ) : (readBytes mem addr n).length = n := by
  simp [readBytes]

theorem overwrite_nil (l : List UInt8) (off : ℕ) : overwrite l off [] = l := by
  simp [overwrite]

theorem length_take_append {l : List UInt8} {off : ℕ} (xs : List UInt8) (h : off ≤ l.length) :
    (l.take off ++ xs).length = off + xs.length := by
  rw [List.length_append, List.length_take_of_le h]

theorem take_overwrite {l : List UInt8} {off : ℕ} {bs : List UInt8} (h : off ≤ l.length) :
    (overwrite l off bs).take (off + bs.length) = l.take off ++ bs := by
  rw [overwrite, List.take_left' (length_take_append bs h)]

theorem overwrite_append {l : List UInt8} {off : ℕ} {xs ys : List UInt8} (h : off ≤ l.length) :
    overwrite (overwrite l off xs) (off + xs.length) ys = overwrite l off (xs ++ ys) := by
  have hdrop : (overwrite l off xs).drop (off + xs.length + ys.length) = l.drop (off + (xs ++ ys).length) := by
    rw [← length_take_append xs h, overwrite, List.drop_length_add_append, List.drop_drop, List.length_append,
      Nat.add_assoc]
  conv_lhs => rw [overwrite]
  rw [take_overwrite h, hdrop, overwrite, List.append_assoc (l.take off)]

theorem getElem?_overwrite {l : List UInt8} {off k : ℕ} {bs : List UInt8} (h : off + bs.length ≤ l.length)
    (hk : k < off ∨ off + bs.length ≤ k) : (overwrite l off bs)[k]? = l[k]? := by
  have hlen := @length_take_append l off bs (by omega)
  rcases hk with hk | hk
  · rw [overwrite, List.append_assoc, List.getElem?_append_left (by rw [List.length_take]; omega),
      List.getElem?_take_of_lt hk]
  · rw [overwrite, List.getElem?_append_right (by omega), hlen, List.getElem?_drop]
    congr 1
    omega

theorem slice_overwrite {l : List UInt8} {off : ℕ} {bs : List UInt8} (h : off ≤ l.length) :
    slice (overwrite l off bs) off bs.length = bs := by
  rw [overwrite, List.append_assoc, slice]
  rw [List.drop_left' (List.length_take_of_le h), List.take_left]

theorem slice_congr {a b : List UInt8} {off n : ℕ} (h : ∀ k, off ≤ k → k < off + n → a[k]? = b[k]?) :
    slice a off n = slice b off n := by
  apply List.ext_getElem?
  intro i
  simp only [slice, List.getElem?_take, List.getElem?_drop]
  split
  · exact h (off + i) (by omega) (by omega)
  · rfl

theorem slice_overwrite_ne {l : List UInt8} {off off' n : ℕ} {bs : List UInt8} (h : off + bs.length ≤ l.length)
    (hd : off' + n ≤ off ∨ off + bs.length ≤ off') : slice (overwrite l off bs) off' n = slice l off' n :=
  slice_congr fun k _ _ => getElem?_overwrite h (by omega)

theorem slice_overwrite_within {l bs : List UInt8} {off k n : ℕ} (hk : k + bs.length ≤ n) (hn : off + n ≤ l.length) :
    slice (overwrite l (off + k) bs) off n = overwrite (slice l off n) k bs := by
  have hsplit : n = k + (bs.length + (n - (k + bs.length))) := by omega
  have h1 : slice (overwrite l (off + k) bs) off k = slice l off k :=
    slice_overwrite_ne (by omega) (.inl le_rfl)
  have h2 : slice (overwrite l (off + k) bs) (off + k) bs.length = bs := slice_overwrite (by omega)
  have h3 : slice (overwrite l (off + k) bs) (off + k + bs.length) (n - (k + bs.length)) =
      slice l (off + k + bs.length) (n - (k + bs.length)) := slice_overwrite_ne (by omega) (.inr le_rfl)
  conv_lhs => rw [hsplit]
  rw [slice_add, slice_add, h1, h2, h3, overwrite, ← List.append_assoc]
  congr 1
  · congr 1
    simp only [slice, List.take_take]
    congr 1
    omega
  · simp only [slice, List.drop_take, List.drop_drop]
    rw [Nat.add_assoc]

theorem leNat_leBytes (n v : ℕ) : leNat (leBytes n v) = v % 256 ^ n := by
  induction n generalizing v with
  | zero => simp [leBytes, leNat, Nat.mod_one]
  | succ n ih =>
    have hbyte : (UInt8.ofNat (v % 256)).toNat = v % 256 := by simp
    rw [leBytes, leNat, ih, hbyte, Nat.pow_succ', Nat.mod_mul]

theorem leBytes_leNat (l : List UInt8) : leBytes l.length (leNat l) = l := by
  induction l with
  | nil => rfl
  | cons x l ih =>
    have hx : x.toNat < 256 := x.toNat_lt
    have hmod : (x.toNat + 256 * leNat l) % 256 = x.toNat := by omega
    have hdiv : (x.toNat + 256 * leNat l) / 256 = leNat l := by omega
    rw [List.length_cons, leBytes, leNat, hmod, hdiv, ih, UInt8.ofNat_toNat]

theorem leNat_lt (l : List UInt8) : leNat l < 256 ^ l.length := by
  induction l with
  | nil => exact Nat.one_pos
  | cons b bs ih =>
    have := b.toNat_lt
    rw [leNat, List.length_cons, Nat.pow_succ']
    omega

theorem leNat_append (l r : List UInt8) : leNat (l ++ r) = leNat l + 256 ^ l.length * leNat r := by
  induction l with
  | nil => simp [leNat]
  | cons b bs ih =>
    rw [List.cons_append, leNat, leNat, ih, List.length_cons, Nat.pow_succ']
    ring

theorem get16_lt (l : List UInt8) (off : ℕ) : get16 l off < 65536 := by
  have hlen : (slice l off 2).length ≤ 2 := by
    rw [slice, List.length_take]
    exact min_le_left _ _
  exact (leNat_lt _).trans_le (Nat.pow_le_pow_right (by decide) hlen)

theorem get16_put16 {l : List UInt8} {off v : ℕ} (h : off ≤ l.length) : get16 (put16 off v l) off = v % 65536 := by
  have hs := @slice_overwrite l off (leBytes 2 v) h
  rw [leBytes_length] at hs
  rw [get16, put16, hs, leNat_leBytes, show 256 ^ 2 = 65536 by decide]

theorem get16_put16_ne {l : List UInt8} {off off' v : ℕ} (h : off + 2 ≤ l.length)
    (hd : off' + 2 ≤ off ∨ off + 2 ≤ off') : get16 (put16 off v l) off' = get16 l off' := by
  refine congrArg leNat (slice_overwrite_ne ?_ ?_)
  · rwa [leBytes_length]
  · rwa [leBytes_length]

theorem get32_put32 {l : List UInt8} {off v : ℕ} (h : off ≤ l.length) :
    get32 (put32 off v l) off = v % 0x100000000 := by
  have hslice := @slice_overwrite l off (leBytes 4 v) h
  rw [leBytes_length] at hslice
  rw [get32, put32, hslice]
  exact leNat_leBytes 4 v

theorem get32_put32_ne {l : List UInt8} {off off' v : ℕ} (h : off + 4 ≤ l.length) (hd : off' + 4 ≤ off ∨ off + 4 ≤ off') :
    get32 (put32 off v l) off' = get32 l off' := by
  rw [get32, put32, slice_overwrite_ne (by rw [leBytes_length]; exact h) (by rw [leBytes_length]; exact hd), get32]

theorem beNat_slice_lt (l : List UInt8) (off n : ℕ) : beNat (slice l off n) < 256 ^ n := by
  refine (leNat_lt _).trans_le (Nat.pow_le_pow_right (by decide) ?_)
  rw [List.length_reverse, slice, List.length_take]
  exact min_le_left _ _

theorem beNat_beBytes (n v : ℕ) : beNat (beBytes n v) = v % 256 ^ n := by
  rw [beNat, beBytes, List.reverse_reverse, leNat_leBytes]

theorem beBytes_length (n v : ℕ) : (beBytes n v).length = n := by
  rw [beBytes, List.length_reverse, leBytes_length]

end Vmux.Bytes
