import MemoryLeak.CBytes

/-!
# Cipher block chaining

A block cipher and its chaining over whole blocks. A prefix of an encryption, cut at a
block, decrypts to the prefix of the text, whatever stands behind it.
-/
namespace MemoryLeak.Cbc
open MemoryLeak.CBytes

/-- Encryption of blocks of `b` bytes under a fixed key, and what undoes it. -/
structure BlockCipher (b : ℕ) where
  enc : Bytes → Bytes
  dec : Bytes → Bytes
  enc_length : ∀ x, x.length = b → (enc x).length = b
  dec_length : ∀ x, x.length = b → (dec x).length = b
  dec_enc : ∀ x, x.length = b → dec (enc x) = x

def xorBytes (x y : Bytes) : Bytes := List.zipWith (· ^^^ ·) x y

theorem xorBytes_length {x y : Bytes} {b : ℕ} (hx : x.length = b) (hy : y.length = b) :
    (xorBytes x y).length = b := by
  rw [xorBytes, List.length_zipWith, hx, hy, Nat.min_self]

theorem xorBytes_cancel {x y : Bytes} (h : x.length = y.length) :
    xorBytes (xorBytes x y) y = x := by
  induction x generalizing y with
  | nil => rfl
  | cons a x ih =>
    cases y with
    | nil => cases h
    | cons c y =>
      have htail := ih (Nat.succ.inj h)
      unfold xorBytes at htail ⊢
      rw [List.zipWith_cons_cons, List.zipWith_cons_cons, htail, UInt8.xor_assoc, UInt8.xor_self,
        UInt8.xor_zero]

variable {b : ℕ} (c : BlockCipher b)

/-- The encryption of the first `n` blocks of a text. -/
def encrypt : ℕ → Bytes → Bytes → Bytes
  | 0, _, _ => []
  | n + 1, iv, x =>
    c.enc (xorBytes (x.take b) iv) ++ encrypt n (c.enc (xorBytes (x.take b) iv)) (x.drop b)

/-- The decryption of the first `n` blocks. -/
def decrypt : ℕ → Bytes → Bytes → Bytes
  | 0, _, _ => []
  | n + 1, iv, y => xorBytes (c.dec (y.take b)) iv ++ decrypt n (y.take b) (y.drop b)

variable {c}

theorem encrypt_length {n : ℕ} {iv x : Bytes} (hiv : iv.length = b) (hx : n * b ≤ x.length) :
    (encrypt c n iv x).length = n * b := by
  induction n generalizing iv x with
  | zero => rw [encrypt, List.length_nil, Nat.zero_mul]
  | succ n ih =>
    rw [Nat.succ_mul] at hx ⊢
    have hblock : (c.enc (xorBytes (x.take b) iv)).length = b :=
      c.enc_length _ (xorBytes_length (List.length_take_of_le (by omega)) hiv)
    rw [encrypt, List.length_append, hblock, ih hblock (by rw [List.length_drop]; omega)]
    omega

theorem decrypt_length {n : ℕ} {iv y : Bytes} (hiv : iv.length = b) (hy : n * b ≤ y.length) :
    (decrypt c n iv y).length = n * b := by
  induction n generalizing iv y with
  | zero => rw [decrypt, List.length_nil, Nat.zero_mul]
  | succ n ih =>
    rw [Nat.succ_mul] at hy ⊢
    have htake : (y.take b).length = b := List.length_take_of_le (by omega)
    have hblock : (xorBytes (c.dec (y.take b)) iv).length = b :=
      xorBytes_length (c.dec_length _ htake) hiv
    rw [decrypt, List.length_append, hblock, ih htake (by rw [List.length_drop]; omega)]
    omega

/-- What follows some blocks is decrypted with the last of them as its chaining block. -/
theorem decrypt_append {n : ℕ} {iv x : Bytes} (m : ℕ) (hx : x.length = (n + 1) * b) (y : Bytes) :
    decrypt c (n + 1 + m) iv (x ++ y) = decrypt c (n + 1) iv x ++
      decrypt c m (x.drop (n * b)) y := by
  induction n generalizing iv x with
  | zero =>
    have hlen : x.length = b := by rw [hx, Nat.one_mul]
    rw [Nat.add_comm, decrypt, decrypt, decrypt, List.take_left' hlen, List.drop_left' hlen,
      List.append_nil, Nat.zero_mul, List.drop_zero, List.take_of_length_le hlen.le]
  | succ n ih =>
    have hle : b ≤ x.length := by rw [hx, Nat.succ_mul]; exact Nat.le_add_left _ _
    have hrest : (x.drop b).length = (n + 1) * b := by
      rw [List.length_drop, hx, Nat.succ_mul, Nat.add_sub_cancel]
    rw [Nat.add_right_comm, decrypt, decrypt, List.take_append_of_le_length hle,
      List.drop_append_of_le_length hle, ih hrest, List.drop_drop, List.append_assoc,
        Nat.add_comm b,
      ← Nat.succ_mul]

/-- The first `j` blocks of an encryption, with anything behind them, decrypt to the first
`j` blocks of the text. -/
theorem decrypt_encrypt {j n m : ℕ} {iv x : Bytes} (hjn : j ≤ n) (hjm : j ≤ m)
    (hiv : iv.length = b) (hx : n * b ≤ x.length) (tail : Bytes) :
    (decrypt c m iv ((encrypt c n iv x).take (j * b) ++ tail)).take (j * b) = x.take (j * b) := by
  induction j generalizing n m iv x with
  | zero => rw [Nat.zero_mul, List.take_zero, List.take_zero]
  | succ j ih =>
    obtain ⟨n, rfl⟩ : ∃ n', n = n' + 1 := ⟨n - 1, by omega⟩
    obtain ⟨m, rfl⟩ : ∃ m', m = m' + 1 := ⟨m - 1, by omega⟩
    rw [Nat.succ_mul] at hx
    have hxor : (xorBytes (x.take b) iv).length = b :=
      xorBytes_length (List.length_take_of_le (by omega)) hiv
    have hblock : (c.enc (xorBytes (x.take b) iv)).length = b := c.enc_length _ hxor
    have hcut : (encrypt c (n + 1) iv x).take ((j + 1) * b) =
        c.enc (xorBytes (x.take b) iv) ++
          (encrypt c n (c.enc (xorBytes (x.take b) iv)) (x.drop b)).take (j * b) := by
      rw [encrypt, List.take_append, hblock,
        List.take_of_length_le (by rw [hblock, Nat.succ_mul]; omega),
        Nat.succ_mul, Nat.add_sub_cancel]
    have hfirst : xorBytes (c.dec (c.enc (xorBytes (x.take b) iv))) iv = x.take b := by
      rw [c.dec_enc _ hxor]
      exact xorBytes_cancel (by rw [hiv, List.length_take_of_le (by omega)])
    rw [hcut, decrypt, List.append_assoc, List.take_left' hblock, List.drop_left' hblock, hfirst,
      Nat.succ_mul, Nat.add_comm, List.take_add,
        List.take_left' (List.length_take_of_le (by omega)),
      List.drop_left' (List.length_take_of_le (by omega)),
      ih (by omega) (by omega) hblock (by rw [List.length_drop]; omega), List.take_add]

end MemoryLeak.Cbc
