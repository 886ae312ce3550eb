import Mathlib.Data.Nat.Bitwise
import Vmux.Bytes
import Vmux.Toeplitz
import Vmux.Transitions

namespace Vmux.RssHash

open Bytes Toeplitz Transitions

def cacheLen : ℕ := 288

structure KeyCache where
  cacheDirty : Bool
  cache : List (BitVec 32)

/-- The words of `pfqf_hkey` as the bytes they are in memory. -/
def keyBytes (hkey : List ℕ) : List UInt8 := hkey.flatMap (leBytes 4)

def byteOf (k : List UInt8) (i : ℕ) : ℕ := (k.getD i 0).toNat

/-- The loop of `build`, with `n` rounds left. -/
def buildFrom (k : List UInt8) : ℕ → ℕ → BitVec 32 → List (BitVec 32)
  | 0, _, _ => []
  | n + 1, idx, result =>
    let bit : BitVec 32 := if (byteOf k (idx / 8) <<< (idx % 8)) &&& 0x80 ≠ 0 then 1 else 0
    result :: buildFrom k n (idx + 1) (result <<< 1 ||| bit)

def build (k : List UInt8) : KeyCache where
  cacheDirty := false
  cache := buildFrom k cacheLen 32 (BitVec.ofNat 32
    (byteOf k 0 <<< 24 ||| byteOf k 1 <<< 16 ||| byteOf k 2 <<< 8 ||| byteOf k 3))

/-- A loop of `hash_ipv4` over the bits of a number, with `n` rounds left. -/
def xorRows {w : ℕ} (cache : List (BitVec 32)) (msb : BitVec w) : ℕ → ℕ → BitVec w → BitVec 32 → BitVec 32
  | 0, _, _, res => res
  | n + 1, i, x, res =>
    xorRows cache msb n (i + 1) (x <<< 1) (if x &&& msb ≠ 0 then res ^^^ cache.getD i 0 else res)

def msb32 : BitVec 32 := 0x80000000
def msb16 : BitVec 16 := 0x8000

def hashIpv4 (c : KeyCache) (k : List UInt8) (sip dip : BitVec 32) (sp dp : BitVec 16) : KeyCache × BitVec 32 :=
  let c := if c.cacheDirty then build k else c
  let res := xorRows c.cache msb32 32 0 sip 0
  let res := xorRows c.cache msb32 32 32 dip res
  let res := xorRows c.cache msb16 16 64 sp res
  (c, xorRows c.cache msb16 16 80 dp res)

/-- `lan` with the key registers. -/
structure Lan where
  pfqfHkey : List ℕ
  rssKc : KeyCache

def be32 (byte : ℕ → UInt8) (i : ℕ) : BitVec 32 := BitVec.ofNat 32 (beNat ((List.range 4).map fun j => byte (i + j)))
def be16 (byte : ℕ → UInt8) (i : ℕ) : BitVec 16 := BitVec.ofNat 16 (beNat ((List.range 2).map fun j => byte (i + j)))

def Lan.hash (s : Lan) (sip dip : BitVec 32) (sp dp : BitVec 16) : Lan × Option (BitVec 32) :=
  let (c, h) := hashIpv4 s.rssKc (keyBytes s.pfqfHkey) sip dip sp dp
  ({ s with rssKc := c }, some h)

/-- `rss_steering` of a frame and what follows it in memory: the hash, if it returns `true`. -/
def rssSteering (s : Lan) (byte : ℕ → UInt8) : Lan × Option (BitVec 32) :=
  let isIp := be16 byte 12 = 0x0800
  let proto := (byte 23).toNat
  if isIp ∧ proto = 6 then s.hash (be32 byte 26) (be32 byte 30) (be16 byte 34) (be16 byte 36)
  else if isIp ∧ proto = 17 then s.hash (be32 byte 26) (be32 byte 30) (be16 byte 34) (be16 byte 36)
  else if isIp then s.hash (be32 byte 26) (be32 byte 30) 0 0
  else (s, none)

def defaultKey : List ℕ :=
  [0xda565a6d, 0xc20e5b25, 0x3d256741, 0xb08fa343, 0xcb2bcad0, 0xb4307bae, 0xa32dcb77, 0x0cf23080, 0x3bb7426a,
    0xfa01acbe, 0, 0, 0]

def setDirty (c : KeyCache) : KeyCache := { c with cacheDirty := true }

inductive Step (s : Lan) : Lan → Prop
  | reset : Step s ⟨defaultKey, setDirty s.rssKc⟩
  | keyUpdated : Step s { s with rssKc := setDirty s.rssKc }
  | steer (byte : ℕ → UInt8) : Step s (rssSteering s byte).1

/-- The cache starts dirty, whatever the registers hold. -/
def lan : Machine Lan where
  start s := s.rssKc.cacheDirty = true
  step := Step

/-- Bit `i` of the key, the bits of a byte counted from its highest. -/
def keyBit (k : List UInt8) (i : ℕ) : Bool := (byteOf k (i / 8)).testBit (7 - i % 8)

def rows (key : ℕ → Bool) : List (BitVec 32) := (List.range cacheLen).map (window key 32)

def Synced (c : KeyCache) (k : List UInt8) : Prop := c.cacheDirty = false → c.cache = rows (keyBit k)

def bits {w : ℕ} (x : BitVec w) : List Bool := (List.range w).map x.getMsbD

def byteBits (b : UInt8) : List Bool := (List.range 8).map fun j => b.toNat.testBit (7 - j)

def frameBits (byte : ℕ → UInt8) (i n : ℕ) : List Bool := ((List.range n).map fun j => byte (i + j)).flatMap byteBits

variable {k : List UInt8} {c : KeyCache} {s t : Lan} {w : ℕ}

theorem and_bit7 (x : ℕ) : x &&& 0x80 ≠ 0 ↔ x.testBit 7 = true := by
  rw [show 0x80 = 2 ^ 7 by rfl, Nat.and_two_pow]
  cases x.testBit 7 <;> simp

theorem incoming_bit (k : List UInt8) (idx : ℕ) :
    (if (byteOf k (idx / 8) <<< (idx % 8)) &&& 0x80 ≠ 0 then 1 else 0 : BitVec 32) =
      (BitVec.ofBool (keyBit k idx)).setWidth 32 := by
  have hle : idx % 8 ≤ 7 := by omega
  have hbit : ((byteOf k (idx / 8) <<< (idx % 8)) &&& 0x80 ≠ 0) ↔ keyBit k idx = true := by
    rw [and_bit7, Nat.testBit_shiftLeft, keyBit]
    simp [hle]
  cases hb : keyBit k idx with
  | false =>
    rw [hb] at hbit
    rw [if_neg (hbit.not.mpr (by simp))]
    rfl
  | true =>
    rw [if_pos (hbit.mpr hb)]
    rfl

theorem buildFrom_eq (k : List UInt8) (n i : ℕ) : buildFrom k n (i + 32) (window (keyBit k) 32 i) =
    (List.range n).map fun j => window (keyBit k) 32 (i + j) := by
  induction n generalizing i with
  | zero => rfl
  | succ n ih =>
    rw [buildFrom, incoming_bit, ← window_succ, Nat.add_right_comm i 32 1, ih, List.range_succ_eq_map, List.map_cons,
      List.map_map]
    rw [Nat.add_zero, List.cons.injEq]
    refine ⟨rfl, List.map_congr_left fun j _ => ?_⟩
    rw [Function.comp_apply, Nat.succ_eq_add_one, Nat.add_assoc, Nat.add_comm 1 j]

theorem byteOf_lt (k : List UInt8) (i : ℕ) : byteOf k i < 2 ^ 8 := UInt8.toNat_lt _

theorem first_window (k : List UInt8) : BitVec.ofNat 32
    (byteOf k 0 <<< 24 ||| byteOf k 1 <<< 16 ||| byteOf k 2 <<< 8 ||| byteOf k 3) = window (keyBit k) 32 0 := by
  have hhigh : ∀ i j, 8 ≤ j → (byteOf k i).testBit j = false := fun i j hj =>
    Nat.testBit_lt_two_pow (lt_of_lt_of_le (byteOf_lt k i) (Nat.pow_le_pow_right (by decide) hj))
  apply BitVec.eq_of_getLsbD_eq
  intro j hj
  rw [getLsbD_window, BitVec.getLsbD_ofNat]
  simp only [Nat.testBit_or, Nat.testBit_shiftLeft, hj, decide_true, Bool.true_and, keyBit, Nat.zero_add]
  by_cases h3 : j < 8
  · have hplace : (32 - 1 - j) / 8 = 3 ∧ 7 - (32 - 1 - j) % 8 = j := by omega
    rw [hplace.1, hplace.2]
    simp [show ¬24 ≤ j by omega, show ¬16 ≤ j by omega, show ¬8 ≤ j by omega]
  · by_cases h2 : j < 16
    · have hplace : (32 - 1 - j) / 8 = 2 ∧ 7 - (32 - 1 - j) % 8 = j - 8 := by omega
      rw [hplace.1, hplace.2, hhigh 3 j (by omega)]
      simp [show ¬24 ≤ j by omega, show ¬16 ≤ j by omega, show 8 ≤ j by omega]
    · by_cases h1 : j < 24
      · have hplace : (32 - 1 - j) / 8 = 1 ∧ 7 - (32 - 1 - j) % 8 = j - 16 := by omega
        rw [hplace.1, hplace.2, hhigh 3 j (by omega), hhigh 2 (j - 8) (by omega)]
        simp [show ¬24 ≤ j by omega, show 16 ≤ j by omega]
      · have hplace : (32 - 1 - j) / 8 = 0 ∧ 7 - (32 - 1 - j) % 8 = j - 24 := by omega
        rw [hplace.1, hplace.2, hhigh 3 j (by omega), hhigh 2 (j - 8) (by omega), hhigh 1 (j - 16) (by omega)]
        simp [show 24 ≤ j by omega]

theorem build_synced (k : List UInt8) : (build k).cache = rows (keyBit k) := by
  rw [build, first_window]
  have h := buildFrom_eq k cacheLen 0
  simpa [rows] using h

theorem and_msb (x : BitVec (w + 1)) : x &&& BitVec.twoPow (w + 1) w ≠ 0 ↔ x.getMsbD 0 = true := by
  rw [BitVec.and_twoPow, BitVec.getMsbD_eq_getLsbD]
  simp only [Nat.zero_lt_succ, decide_true, Bool.true_and, Nat.add_sub_cancel, Nat.sub_zero]
  by_cases h : x.getLsbD w = true
  · rw [if_pos h]
    simp only [h, iff_true]
    intro h0
    have hbit := congrArg (BitVec.getLsbD · w) h0
    simp at hbit
  · rw [if_neg h]
    exact iff_of_false (fun hc => hc rfl) h

/-- The loops of `hash_ipv4` go through rows of the cache, one for each bit. -/
theorem xorRows_eq (key : ℕ → Bool) {n i : ℕ} (h : i + n ≤ cacheLen) (x : BitVec (w + 1)) (res : BitVec 32) :
    xorRows (rows key) (BitVec.twoPow (w + 1) w) n i x res =
      res ^^^ toeplitz key 32 i ((List.range n).map x.getMsbD) := by
  induction n generalizing i x res with
  | zero => simp [xorRows, toeplitz]
  | succ n ih =>
    have hrow : (rows key).getD i 0 = window key 32 i := by
      have hlt : i < cacheLen := by omega
      simp [rows, List.getD, hlt]
    have hshift : (List.range n).map (x <<< 1).getMsbD = (List.range n).map (x.getMsbD ∘ Nat.succ) := by
      apply List.map_congr_left
      intro j _
      rw [BitVec.getMsbD_shiftLeft]
      rfl
    rw [xorRows, ih (by omega), hshift, List.range_succ_eq_map, List.map_cons, List.map_map, toeplitz, hrow]
    by_cases hb : x.getMsbD 0 = true
    · rw [if_pos ((and_msb x).mpr hb), if_pos hb, BitVec.xor_assoc]
    · rw [if_neg (mt (and_msb x).mp hb), if_neg hb, BitVec.zero_xor]

theorem hashIpv4_eq (h : Synced c k) (sip dip : BitVec 32) (sp dp : BitVec 16) :
    Synced (hashIpv4 c k sip dip sp dp).1 k ∧ (hashIpv4 c k sip dip sp dp).2 =
      toeplitz (keyBit k) 32 0 (bits sip ++ bits dip ++ bits sp ++ bits dp) := by
  have hc : (if c.cacheDirty then build k else c).cache = rows (keyBit k) := by
    split
    · exact build_synced k
    · rename_i hd
      exact h (Bool.not_eq_true _ ▸ hd)
  refine ⟨fun _ => hc, ?_⟩
  rw [hashIpv4]
  dsimp only
  rw [hc, show msb32 = BitVec.twoPow 32 31 by rfl, show msb16 = BitVec.twoPow 16 15 by rfl,
    xorRows_eq _ (by decide), xorRows_eq _ (by decide), xorRows_eq _ (by decide), xorRows_eq _ (by decide)]
  simp only [toeplitz_append, bits, List.length_append, List.length_map, List.length_range, Nat.zero_add]
  rw [show (0 : BitVec 32) = 0#32 by rfl, BitVec.zero_xor]

example : (hashIpv4 ⟨true, []⟩ (keyBytes defaultKey) 0x420995bb 0xa18e6450 2794 1766).2 = 0x51ccc178 := by
  decide +kernel

theorem beNat_cons (b : UInt8) (l : List UInt8) : beNat (b :: l) = 2 ^ (8 * l.length) * b.toNat + beNat l := by
  rw [beNat, List.reverse_cons, leNat_append, List.length_reverse, Nat.pow_mul, beNat, Nat.add_comm]
  simp [leNat]

theorem beNat_lt (l : List UInt8) : beNat l < 2 ^ (8 * l.length) := by
  have h := leNat_lt l.reverse
  rw [List.length_reverse] at h
  rw [beNat, Nat.pow_mul]
  exact h

theorem bits_beNat (l : List UInt8) : (List.range (8 * l.length)).map
    (fun j => (beNat l).testBit (8 * l.length - 1 - j)) = l.flatMap byteBits := by
  induction l with
  | nil => rfl
  | cons b l ih =>
    have hlen : 8 * (b :: l).length = 8 + 8 * l.length := by
      rw [List.length_cons]
      omega
    rw [hlen, List.range_add, List.map_append, List.map_map, List.flatMap_cons, ← ih, byteBits]
    congr 1
    · apply List.map_congr_left
      intro j hj
      have hlt := List.mem_range.mp hj
      have hplace : 8 + 8 * l.length - 1 - j - 8 * l.length = 7 - j := by omega
      rw [beNat_cons, Nat.testBit_two_pow_mul_add _ (beNat_lt l), if_neg (by omega), hplace]
    · apply List.map_congr_left
      intro j hj
      have hlt := List.mem_range.mp hj
      have hplace : 8 + 8 * l.length - 1 - (8 + j) = 8 * l.length - 1 - j := by omega
      rw [Function.comp_apply, beNat_cons, Nat.testBit_two_pow_mul_add _ (beNat_lt l), hplace, if_pos (by omega)]

theorem bits_ofNat {n : ℕ} {l : List UInt8} (h : l.length = n) :
    bits (BitVec.ofNat (8 * n) (beNat l)) = l.flatMap byteBits := by
  subst h
  rw [← bits_beNat]
  apply List.map_congr_left
  intro j hj
  have hlt := List.mem_range.mp hj
  rw [BitVec.getMsbD_eq_getLsbD, BitVec.getLsbD_ofNat]
  simp [hlt, show 8 * l.length - 1 - j < 8 * l.length by omega]

theorem bits_be32 (byte : ℕ → UInt8) (i : ℕ) : bits (be32 byte i) = frameBits byte i 4 :=
  bits_ofNat (n := 4) (by simp)

theorem bits_be16 (byte : ℕ → UInt8) (i : ℕ) : bits (be16 byte i) = frameBits byte i 2 :=
  bits_ofNat (n := 2) (by simp)

theorem frameBits_add (byte : ℕ → UInt8) (i m n : ℕ) :
    frameBits byte i (m + n) = frameBits byte i m ++ frameBits byte (i + m) n := by
  simp [frameBits, List.range_add, Nat.add_assoc, Function.comp_def]

def Lan.Synced (s : Lan) : Prop := RssHash.Synced s.rssKc (keyBytes s.pfqfHkey)

theorem Lan.hash_eq (h : s.Synced) (sip dip : BitVec 32) (sp dp : BitVec 16) : (s.hash sip dip sp dp).1.Synced ∧
    (s.hash sip dip sp dp).2 =
      some (toeplitz (keyBit (keyBytes s.pfqfHkey)) 32 0 (bits sip ++ bits dip ++ bits sp ++ bits dp)) := by
  obtain ⟨hs, he⟩ := hashIpv4_eq h sip dip sp dp
  exact ⟨hs, congrArg some he⟩

theorem rssSteering_synced (h : s.Synced) (byte : ℕ → UInt8) : (rssSteering s byte).1.Synced := by
  rw [rssSteering]
  split
  · exact (Lan.hash_eq h _ _ _ _).1
  · split
    · exact (Lan.hash_eq h _ _ _ _).1
    · split
      · exact (Lan.hash_eq h _ _ _ _).1
      · exact h

theorem Lan.Synced.reachable (h : lan.Reachable s) : s.Synced := by
  refine h.invariant (fun s hd hf => ?_) fun s t hi hs => ?_
  · rw [show s.rssKc.cacheDirty = true from hd] at hf
    cases hf
  · cases hs with
    | reset => nofun
    | keyUpdated => nofun
    | steer byte => exact rssSteering_synced hi byte

/-- Whatever came before, the hash is the Toeplitz hash of the addresses, and of the ports of TCP and UDP, under
the key in the registers. -/
theorem rss_steering_toeplitz (s : Lan) (h : lan.Reachable s) (byte : ℕ → UInt8) : (rssSteering s byte).2 =
    if be16 byte 12 = 0x0800 then some (toeplitz (keyBit (keyBytes s.pfqfHkey)) 32 0
      (frameBits byte 26 (if (byte 23).toNat = 6 ∨ (byte 23).toNat = 17 then 12 else 8))) else none := by
  have hs := Lan.Synced.reachable h
  have hframe : frameBits byte 26 12 =
      frameBits byte 26 4 ++ frameBits byte 30 4 ++ frameBits byte 34 2 ++ frameBits byte 36 2 := by
    rw [← frameBits_add byte 26 4 4, ← frameBits_add byte 26 8 2, ← frameBits_add byte 26 10 2]
  have hports : bits (0 : BitVec 16) = List.replicate 16 false := by decide
  rw [rssSteering]
  by_cases hip : be16 byte 12 = 0x0800
  · by_cases htcp : (byte 23).toNat = 6
    · rw [if_pos ⟨hip, htcp⟩, (Lan.hash_eq hs _ _ _ _).2, if_pos hip, if_pos (.inl htcp), hframe]
      simp only [bits_be32, bits_be16]
    · by_cases hudp : (byte 23).toNat = 17
      · rw [if_neg (fun hc => htcp hc.2), if_pos ⟨hip, hudp⟩, (Lan.hash_eq hs _ _ _ _).2, if_pos hip,
          if_pos (.inr hudp), hframe]
        simp only [bits_be32, bits_be16]
      · rw [if_neg (fun hc => htcp hc.2), if_neg (fun hc => hudp hc.2), if_pos hip, (Lan.hash_eq hs _ _ _ _).2,
          if_pos hip, if_neg (by rintro (hc | hc) <;> contradiction), frameBits_add byte 26 4 4, hports]
        simp only [toeplitz_append, toeplitz_zeros, bits_be32, BitVec.xor_zero]
  · rw [if_neg (fun hc => hip hc.1), if_neg (fun hc => hip hc.1), if_neg hip, if_neg hip]

def ready : Lan := ⟨defaultKey, ⟨true, []⟩⟩

def udpFrame (i : ℕ) : UInt8 := if i = 12 then 0x08 else if i = 13 then 0x00 else if i = 14 then 0x45 else 0x11

theorem rss_steering_toeplitz_udp : (rssSteering ready udpFrame).2 =
    some (toeplitz (keyBit (keyBytes defaultKey)) 32 0 (frameBits udpFrame 26 12)) :=
  rss_steering_toeplitz ready (.start rfl) udpFrame

end Vmux.RssHash
