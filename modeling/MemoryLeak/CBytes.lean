import Mathlib.Algebra.Group.Int.Defs
import Mathlib.Algebra.Group.Nat.Defs
import Mathlib.Data.List.Basic
import Mathlib.Data.List.TakeWhile
import Mathlib.Tactic.SplitIfs

/-!
# Byte buffers and C strings

Memory seen through a pointer is the list of bytes from the pointer on. A read
past the listed bytes gives zero, so the end of a list ends a C string as a NUL
does; what lies behind an object is listed explicitly where it matters. The
operations are the ones of `string.h`: `strlen`, `strncmp`, `memcpy`, `memset`.
-/
namespace MemoryLeak.CBytes

abbrev Bytes := List UInt8

/-- A buffer cleared by `memset(p, 0, n)`. -/
def zeros (n : ℕ) : Bytes := List.replicate n 0

@[simp] theorem zeros_length (n : ℕ) : (zeros n).length = n := by simp [zeros]

/-- The byte at an offset. -/
def byteAt (s : Bytes) (i : ℕ) : UInt8 := s.getD i 0

@[simp] theorem byteAt_zeros (n i : ℕ) : byteAt (zeros n) i = 0 := by
  by_cases h : i < n
  · simp [byteAt, zeros, h]
  · have hlen : (zeros n).length ≤ i := by simp; omega
    simp [byteAt, List.getElem?_eq_none hlen]

theorem getElem?_eq_byteAt {s : Bytes} {i : ℕ} (h : i < s.length) : s[i]? = some (byteAt s i) := by
  rw [byteAt, List.getD_eq_getElem?_getD, List.getElem?_eq_getElem h, Option.getD_some]

theorem byteAt_eq_getElem {s : Bytes} {i : ℕ} (h : i < s.length) : byteAt s i = s[i] := by
  rw [byteAt, List.getD_eq_getElem?_getD, List.getElem?_eq_getElem h, Option.getD_some]

theorem byteAt_append_left (s t : Bytes) {i : ℕ} (h : i < s.length) :
    byteAt (s ++ t) i = byteAt s i := by
  simp [byteAt, List.getElem?_append_left h]

theorem byteAt_append_right (s t : Bytes) {i : ℕ} (h : s.length ≤ i) :
    byteAt (s ++ t) i = byteAt t (i - s.length) := by
  simp [byteAt, List.getElem?_append_right h]

theorem byteAt_drop (s : Bytes) (n i : ℕ) : byteAt (s.drop n) i = byteAt s (n + i) := by
  simp [byteAt]

theorem byteAt_take (s : Bytes) {i n : ℕ} (h : i < n) : byteAt (s.take n) i = byteAt s i := by
  simp [byteAt, List.getElem?_take_of_lt h]

theorem byteAt_zero_iff {b : Bytes} (hb : (0 : UInt8) ∉ b) : byteAt b 0 = 0 ↔ b = [] := by
  cases b with
  | nil => exact iff_of_true rfl rfl
  | cons c b =>
    refine iff_of_false (fun h => hb ?_) (List.cons_ne_nil c b)
    rw [byteAt, List.getD_cons_zero] at h
    exact h ▸ List.mem_cons_self

/-- The number of bytes before the first NUL. -/
def strlen (s : Bytes) : ℕ := (s.takeWhile (· != 0)).length

theorem strlen_le_length (s : Bytes) : strlen s ≤ s.length :=
  (List.takeWhile_prefix _).length_le

/-- The text of a string field of `n` bytes: what stands before its first NUL,
or the whole field when it has none. -/
def cstr (n : ℕ) (s : Bytes) : Bytes := (s.take n).takeWhile (· != 0)

@[simp] theorem cstr_zero (s : Bytes) : cstr 0 s = [] := by simp [cstr]

@[simp] theorem cstr_nil (n : ℕ) : cstr n [] = [] := by simp [cstr]

theorem cstr_succ_cons (n : ℕ) (a : UInt8) (s : Bytes) :
    cstr (n + 1) (a :: s) = if a = 0 then [] else a :: cstr n s := by
  by_cases h : a = 0 <;> simp [cstr, h]

theorem cstr_length_le (n : ℕ) (s : Bytes) : (cstr n s).length ≤ n := by
  have h := (List.takeWhile_prefix (fun b : UInt8 => b != 0) (l := s.take n)).length_le
  have ht := List.length_take_le n s
  exact h.trans ht

theorem cstr_take {n k : ℕ} (h : n ≤ k) (s : Bytes) : cstr n (s.take k) = cstr n s := by
  simp [cstr, List.take_take, Nat.min_eq_left h]

/-- A string that ends inside the field is read in full. -/
theorem cstr_eq_takeWhile {n : ℕ} {s : Bytes} (h : strlen s < n) :
    cstr n s = s.takeWhile (· != 0) := by
  induction s generalizing n with
  | nil => simp
  | cons a s ih =>
    obtain ⟨n, rfl⟩ : ∃ k, n = k + 1 := ⟨n - 1, by omega⟩
    rw [cstr_succ_cons, List.takeWhile_cons]
    by_cases ha : a = 0
    · simp [ha]
    · have hs : strlen s < n := by
        have : strlen (a :: s) = strlen s + 1 := by simp [strlen, ha]
        omega
      simp [ha, ih hs]

theorem cstr_length_of_strlen_lt {n : ℕ} {s : Bytes} (h : strlen s < n) :
    (cstr n s).length = strlen s := by
  rw [cstr_eq_takeWhile h, strlen]

/-- The field holds a terminator exactly when its text is shorter than it. -/
theorem cstr_length_lt_iff (n : ℕ) (s : Bytes) : (cstr n s).length < n ↔ strlen s < n := by
  induction n generalizing s with
  | zero => simp
  | succ n ih =>
    cases s with
    | nil => simp [strlen]
    | cons a s =>
      rw [cstr_succ_cons]
      by_cases ha : a = 0
      · simp [ha, strlen]
      · have hs : strlen (a :: s) = strlen s + 1 := by simp [strlen, ha]
        simp only [if_neg ha, List.length_cons, hs, Nat.add_lt_add_iff_right]
        exact ih s

/-- A field without a terminator is its own text. -/
theorem cstr_eq_take_of_le_strlen {n : ℕ} {s : Bytes} (h : n ≤ strlen s) :
    cstr n s = s.take n := by
  have hlt : ¬ (cstr n s).length < n := by rw [cstr_length_lt_iff]; omega
  have hpre : cstr n s <+: s.take n := List.takeWhile_prefix _
  have hle := List.length_take_le n s
  exact hpre.eq_of_length (by have := hpre.length_le; omega)

/-- A text in a cleared field. -/
theorem cstr_append_zeros {n k : ℕ} {s : Bytes} (h : ∀ b ∈ s, b ≠ 0) (hn : s.length ≤ n) :
    cstr n (s ++ zeros k) = s := by
  have hzero : (zeros k).take (n - s.length) = zeros (min (n - s.length) k) := by simp [zeros]
  have hnone : (zeros (min (n - s.length) k)).takeWhile (· != 0) = [] := by
    rw [List.takeWhile_eq_nil_iff]
    intro hpos
    simp [zeros]
  rw [cstr, List.take_append, List.take_of_length_le hn, hzero,
    List.takeWhile_append_of_pos (by simpa using h), hnone, List.append_nil]

theorem ne_zero_of_mem_cstr {n : ℕ} {s : Bytes} {b : UInt8} (h : b ∈ cstr n s) : b ≠ 0 := by
  simpa using List.mem_takeWhile_imp h

/-- No byte before `strlen` is a NUL. -/
theorem byteAt_ne_zero_of_lt_strlen {s : Bytes} {i : ℕ} (h : i < strlen s) : byteAt s i ≠ 0 := by
  induction s generalizing i with
  | nil => simp [strlen] at h
  | cons a s ih =>
    by_cases ha : a = 0
    · simp [strlen, ha] at h
    · cases i with
      | zero => simpa [byteAt] using ha
      | succ i =>
        have hs : strlen (a :: s) = strlen s + 1 := by simp [strlen, ha]
        simpa [byteAt] using ih (i := i) (by omega)

/-- `strlen` skips a run of bytes none of which is a NUL. -/
theorem strlen_append {s t : Bytes} (h : ∀ b ∈ s, b ≠ 0) :
    strlen (s ++ t) = s.length + strlen t := by
  have htw : (s ++ t).takeWhile (· != 0) = s ++ t.takeWhile (· != 0) :=
    List.takeWhile_append_of_pos (by simpa using h)
  simp [strlen, htw]

@[simp] theorem strlen_zero_cons (s : Bytes) : strlen (0 :: s) = 0 := by simp [strlen]

/-- `strncmp`: compare at most `n` bytes, as unsigned chars, up to the first
difference or the first NUL both strings share. -/
def strncmp : ℕ → Bytes → Bytes → ℤ
  | 0, _, _ => 0
  | n + 1, a, b =>
    let x := a.headD 0
    let y := b.headD 0
    if x ≠ y then (x.toNat : ℤ) - y.toNat
    else if x = 0 then 0
    else strncmp n a.tail b.tail

/-- Two fields compare equal exactly when they hold the same text. -/
theorem strncmp_eq_zero_iff (n : ℕ) (a b : Bytes) :
    strncmp n a b = 0 ↔ cstr n a = cstr n b := by
  induction n generalizing a b with
  | zero => simp [strncmp]
  | succ n ih =>
    have hsub : ∀ x y : UInt8, x ≠ y → (x.toNat : ℤ) - y.toNat ≠ 0 := by
      intro x y hxy h
      exact hxy (UInt8.toNat_inj.mp (by omega))
    cases a with
    | nil =>
      cases b with
      | nil => simp [strncmp]
      | cons y b =>
        by_cases hy : y = 0
        · simp [strncmp, cstr_succ_cons, hy]
        · have h := hsub 0 y (Ne.symm hy)
          simpa [strncmp, cstr_succ_cons, hy, Ne.symm hy] using h
    | cons x a =>
      cases b with
      | nil =>
        by_cases hx : x = 0
        · simp [strncmp, cstr_succ_cons, hx]
        · have h := hsub x 0 hx
          simpa [strncmp, cstr_succ_cons, hx] using h
      | cons y b =>
        by_cases hxy : x = y
        · subst hxy
          by_cases hx : x = 0
          · simp [strncmp, cstr_succ_cons, hx]
          · simp [strncmp, cstr_succ_cons, hx, ih]
        · have h := hsub x y hxy
          by_cases hx : x = 0
          · subst hx
            simpa [strncmp, cstr_succ_cons, hxy, Ne.symm hxy] using h
          · by_cases hy : y = 0
            · subst hy
              simpa [strncmp, cstr_succ_cons, hxy] using h
            · simpa [strncmp, cstr_succ_cons, hx, hy, hxy] using h

/-- `memcpy(dst + off, src, src.length)`, the destination being long enough. -/
def memcpy (dst : Bytes) (off : ℕ) (src : Bytes) : Bytes :=
  dst.take off ++ src ++ dst.drop (off + src.length)

@[simp] theorem memcpy_length {dst src : Bytes} {off : ℕ} (h : off + src.length ≤ dst.length) :
    (memcpy dst off src).length = dst.length := by
  simp [memcpy]
  omega

/-- The bytes before the copy are kept. -/
theorem memcpy_take_of_le {dst src : Bytes} {off n : ℕ} (hn : n ≤ off) (ho : off ≤ dst.length) :
    (memcpy dst off src).take n = dst.take n := by
  rw [memcpy, List.append_assoc, List.take_append_of_le_length (by simp; omega), List.take_take,
    Nat.min_eq_left hn]

/-- The bytes up to the end of the copy. -/
theorem memcpy_take_end {dst src : Bytes} {off n : ℕ} (ho : off ≤ dst.length)
    (hn : n = off + src.length) : (memcpy dst off src).take n = dst.take off ++ src := by
  have hl : (dst.take off ++ src).length = n := by simp [hn, Nat.min_eq_left ho]
  rw [memcpy, List.take_append_of_le_length (by omega), List.take_of_length_le (by omega)]

/-- A byte outside the copied range is unchanged. -/
theorem byteAt_memcpy_of_lt {dst src : Bytes} {off i : ℕ} (hi : i < off) (ho : off ≤ dst.length) :
    byteAt (memcpy dst off src) i = byteAt dst i := by
  rw [memcpy, List.append_assoc, byteAt_append_left _ _ (by simp; omega), byteAt_take _ hi]

/-- A byte inside the copied range is the source's. -/
theorem byteAt_memcpy_of_mem {dst src : Bytes} {off i : ℕ} (ho : off ≤ dst.length)
    (hi : off ≤ i) (hlt : i < off + src.length) :
    byteAt (memcpy dst off src) i = byteAt src (i - off) := by
  have hlen : (dst.take off).length = off := by simp [ho]
  rw [memcpy, List.append_assoc, byteAt_append_right _ _ (by omega), hlen,
    byteAt_append_left _ _ (by omega)]

/-- A byte behind the copied range is unchanged. -/
theorem byteAt_memcpy_of_ge {dst src : Bytes} {off i : ℕ} (ho : off ≤ dst.length)
    (hi : off + src.length ≤ i) : byteAt (memcpy dst off src) i = byteAt dst i := by
  have hlen : (dst.take off ++ src).length = off + src.length := by simp [ho]
  rw [memcpy, byteAt_append_right _ _ (by omega), hlen, byteAt_drop]
  congr 1
  omega

/-- The bytes from the end of the copy on are kept. -/
theorem memcpy_drop_end {dst src : Bytes} {off n : ℕ} (ho : off ≤ dst.length)
    (hn : n = off + src.length) : (memcpy dst off src).drop n = dst.drop n := by
  have hl : (dst.take off ++ src).length = n := by simp [hn, Nat.min_eq_left ho]
  rw [memcpy, List.drop_left' hl, hn]

/-- A copy inside a buffer behind its first `k` bytes. -/
theorem memcpy_keeps {dst src : Bytes} {off k n : ℕ} (hlen : dst.length = n)
    (hfit : off + src.length ≤ n) (hk : k ≤ off) :
    (memcpy dst off src).length = n ∧ (memcpy dst off src).take k = dst.take k :=
  ⟨by rw [memcpy_length (by omega), hlen], memcpy_take_of_le hk (by omega)⟩

/-- A copy to the start of a buffer. -/
theorem memcpy_start (dst src : Bytes) : memcpy dst 0 src = src ++ dst.drop src.length := by
  simp [memcpy]

/-- A copy to the start of the cleared part of a buffer. -/
theorem memcpy_append_zeros (front src : Bytes) (n : ℕ) :
    memcpy (front ++ zeros n) front.length src = front ++ (src ++ zeros (n - src.length)) := by
  simp [memcpy, zeros, List.drop_append]

theorem memcpy_zeros (n : ℕ) (src : Bytes) :
    memcpy (zeros n) 0 src = src ++ zeros (n - src.length) := memcpy_append_zeros [] src n

/-- A second copy over the same range replaces the first. -/
theorem memcpy_memcpy_same {dst src src' : Bytes} {off : ℕ} (ho : off ≤ dst.length)
    (hl : src.length = src'.length) :
    memcpy (memcpy dst off src) off src' = memcpy dst off src' := by
  rw [memcpy, memcpy_take_of_le le_rfl ho, memcpy_drop_end ho (by rw [hl]), memcpy]

/-- Two adjacent copies are one. -/
theorem memcpy_memcpy_adjacent {dst src src' : Bytes} {off n : ℕ} (hn : n = off + src.length)
    (ho : n ≤ dst.length) :
    memcpy (memcpy dst n src') off src = memcpy dst off (src ++ src') := by
  have htake : (memcpy dst n src').take off = dst.take off :=
    memcpy_take_of_le (by omega) ho
  have hdrop : (memcpy dst n src').drop n = src' ++ dst.drop (n + src'.length) := by
    rw [memcpy, List.append_assoc, List.drop_left' (by simp [ho])]
  rw [memcpy, htake, ← hn, hdrop, memcpy, List.length_append, hn, Nat.add_assoc]
  simp [List.append_assoc]

/-- A string with its terminator. -/
theorem take_strlen_succ (s : Bytes) :
    (s ++ [0]).take (strlen s + 1) = s.takeWhile (· != 0) ++ [0] := by
  induction s with
  | nil => simp [strlen]
  | cons a s ih =>
    by_cases ha : a = 0
    · simp [ha, strlen]
    · have hs : strlen (a :: s) = strlen s + 1 := by simp [strlen, ha]
      rw [hs, List.cons_append, List.take_succ_cons, ih]
      simp [ha]

/-- What `memcpy(dst, s, MIN(n, strlen(s) + 1))` leaves in a cleared field. -/
theorem take_copied_string (n k : ℕ) (s : Bytes) (hk : n ≤ k) :
    ((s ++ [0]).take (min n (strlen s + 1)) ++ zeros k).take n = (cstr n s ++ zeros n).take n := by
  by_cases h : strlen s < n
  · have hz : [0] ++ zeros k = zeros (k + 1) := rfl
    have hlen : (cstr n s).length = strlen s := cstr_length_of_strlen_lt h
    rw [Nat.min_eq_right h, take_strlen_succ, ← cstr_eq_takeWhile h, List.append_assoc, hz,
      List.take_append, List.take_append]
    congr 1
    simp only [zeros, List.take_replicate]
    congr 1
    omega
  · have hs := strlen_le_length s
    have hlen : (s.take n).length = n := by simp; omega
    have happ : (s ++ [0]).take n = s.take n := List.take_append_of_le_length (by omega)
    rw [Nat.min_eq_left (by omega), happ, cstr_eq_take_of_le_strlen (by omega),
      List.take_left' hlen, List.take_left' hlen]

/-- Behind a text, a key whose first byte occurs nowhere else in it can be read from
the start only when the text is empty or starts with the key itself. -/
theorem take_append_key_iff {key : Bytes} (text : Bytes)
    (hfirst : ∀ i < key.length, 0 < i → byteAt key i ≠ byteAt key 0) :
    (text ++ key).take key.length = key ↔
      text = [] ∨ key.length ≤ text.length ∧ text.take key.length = key := by
  by_cases hnil : text = []
  · simp [hnil]
  · have hpos : 0 < text.length := List.length_pos_iff.mpr hnil
    by_cases hle : key.length ≤ text.length
    · simp [hnil, hle, List.take_append_of_le_length]
    · simp only [hnil, hle, false_and, or_self, iff_false]
      intro heq
      -- the key starts again inside itself
      have hbyte : byteAt key text.length = byteAt (text ++ key) text.length := by
        rw [← byteAt_take (text ++ key) (show text.length < key.length by omega), heq]
      rw [byteAt_append_right text key le_rfl, Nat.sub_self] at hbyte
      exact hfirst text.length (by omega) hpos hbyte

/-- An `unsigned long long` stored in an `int`. -/
def toInt (x : ℕ) : ℤ := Int.bmod x (2 ^ 32)

theorem toInt_le (x : ℕ) : toInt x ≤ x := by
  unfold toInt
  rw [Int.bmod_def]
  split_ifs <;> omega

theorem toInt_of_lt {x : ℕ} (h : x < 2 ^ 31) : toInt x = x := by
  apply Int.bmod_eq_of_le <;> omega

/-- Beyond `INT_MAX` the value is negative. -/
theorem toInt_of_ge {x : ℕ} (hlo : 2 ^ 31 ≤ x) (hhi : x < 2 ^ 32) :
    toInt x = (x : ℤ) - 2 ^ 32 := by
  have hsub : Int.bmod ((x : ℤ) - (2 ^ 32 : ℕ)) (2 ^ 32) = toInt x := Int.sub_bmod_right x (2 ^ 32)
  rw [← hsub, Int.bmod_eq_of_le (by omega) (by omega)]
  rfl

/-- A pointer argument with its `int` length: null, or at least that many
readable bytes. -/
structure BufArg where
  ptr : Option Bytes
  n : ℤ
  int : n < 2 ^ 31
  readable : ∀ b ∈ ptr, n ≤ b.length

/-- All of some bytes as an argument. -/
def BufArg.ofBytes (b : Bytes) (h : b.length < 2 ^ 31) : BufArg where
  ptr := some b
  n := b.length
  int := by omega
  readable := by simp

/-- The bytes handed over: the first `n` behind the pointer. -/
def BufArg.bytes (a : BufArg) : Bytes := (a.ptr.getD []).take a.n.toNat

theorem BufArg.length_bytes {a : BufArg} {b : Bytes} (h : a.ptr = some b) :
    a.bytes.length = a.n.toNat := by
  have hn := a.readable b (by simp [h])
  simp [BufArg.bytes, h]
  omega

end MemoryLeak.CBytes
