import MemoryLeak.Notify.Message

/-!
# Encryption of messages

`rsa_enc`, `rsa_dec`, `msg_aes_enc` and `msg_aes_dec` over the library calls
they make. A key object is what the calls on it return; AES-GCM is a pair of
functions. The lengths documented for their results are fields.
-/
namespace MemoryLeak.Notify
open MemoryLeak.CBytes

/-- `EVP_aes_256_gcm` as `gcm_encrypt` and `gcm_decrypt` use it, the additional
data being the iv. An encryption that fails gives `none`. A decryption writes its
output before the tag is checked. -/
structure Gcm where
  encrypt : (key iv plain : Bytes) → Option (Bytes × Bytes)
  decrypt : (key iv cipher tag : Bytes) → Bytes × Bool
  encrypt_length : ∀ key iv plain cipher tag, encrypt key iv plain = some (cipher, tag) →
    cipher.length = plain.length ∧ tag.length = aesIvBytes
  decrypt_length : ∀ key iv cipher tag, (decrypt key iv cipher tag).1.length = cipher.length

/-- The calls with every operation failing. -/
def Gcm.failing : Gcm where
  encrypt := fun _ _ _ => none
  decrypt := fun _ _ cipher _ => (cipher, false)
  encrypt_length := by simp
  decrypt_length := by simp

/-- Encryption succeeds and decryption undoes it. -/
structure Gcm.Lawful (G : Gcm) : Prop where
  total : ∀ key iv plain, (G.encrypt key iv plain).isSome
  undo : ∀ key iv plain cipher tag, G.encrypt key iv plain = some (cipher, tag) →
    G.decrypt key iv cipher tag = (plain, true)

/-- One recorded encryption, and a stand-in elsewhere. -/
def Gcm.recorded (key iv plain cipher tag : Bytes) (hc : cipher.length = plain.length)
    (ht : tag.length = aesIvBytes) : Gcm where
  encrypt := fun k i p =>
    if k = key ∧ i = iv ∧ p = plain then some (cipher, tag) else some (p, zeros aesIvBytes)
  decrypt := fun k i c t =>
    if k = key ∧ i = iv ∧ c = cipher ∧ t = tag then (plain, true)
    else (c, decide (t = zeros aesIvBytes))
  encrypt_length := by
    intro k i p c t h
    split_ifs at h with hp
    · cases h
      rw [hp.2.2]
      exact ⟨hc, ht⟩
    · cases h
      exact ⟨rfl, zeros_length _⟩
  decrypt_length := by
    intro k i c t
    split_ifs with h
    · rw [h.2.2.1, hc]
    · rfl

theorem Gcm.recorded_lawful {key iv plain cipher tag : Bytes} (hc : cipher.length = plain.length)
    (ht : tag.length = aesIvBytes) (hne : tag ≠ zeros aesIvBytes) :
    (Gcm.recorded key iv plain cipher tag hc ht).Lawful where
  total := by
    intro k i p
    simp only [Gcm.recorded]
    split_ifs <;> rfl
  undo := by
    intro k i p c t h
    simp only [Gcm.recorded] at h ⊢
    split_ifs at h with hp
    · cases h
      rw [if_pos ⟨hp.1, hp.2.1, rfl, rfl⟩, hp.2.2]
    · cases h
      rw [if_neg fun hr => hne hr.2.2.2.symm]
      simp

/-- A public key: `RSA_size` and `RSA_public_encrypt`, which returns a block of
that size or fails. The padding takes 11 bytes of the block at least. -/
structure RsaPub where
  size : ℕ
  publicEncrypt : Bytes → Option Bytes
  encrypt_length : ∀ plain cipher, publicEncrypt plain = some cipher →
    cipher.length = size ∧ plain.length + 11 ≤ size

/-- A private key. A decryption that returns no byte counts as failed. -/
structure RsaPrv where
  size : ℕ
  privateDecrypt : Bytes → Option Bytes
  decrypt_pos : ∀ cipher plain, privateDecrypt cipher = some plain → 0 < plain.length

/-- A public key known by one encryption it made. -/
def RsaPub.single (plain cipher : Bytes) (h : plain.length + 11 ≤ cipher.length) : RsaPub where
  size := cipher.length
  publicEncrypt := fun m => if m = plain then some cipher else none
  encrypt_length := by
    intro m c hc
    split_ifs at hc with hm
    rw [← Option.some.inj hc, hm]
    exact ⟨rfl, h⟩

/-- The private key behind it. -/
def RsaPrv.single (plain cipher : Bytes) (h : 0 < plain.length) : RsaPrv where
  size := cipher.length
  privateDecrypt := fun c => if c = cipher then some plain else none
  decrypt_pos := by
    intro c m hm
    split_ifs at hm
    rwa [← Option.some.inj hm]

/-! ### rsa_enc, rsa_dec -/

/-- The size of the block that `rsa_enc` and `rsa_dec` allocate. -/
def rsaBuflen (lenin block : ℕ) : ℕ :=
  if lenin % block ≠ 0 then lenin + (block - lenin % block) + 1 else lenin + 1

/-- `rsa_enc`: what `*out` points at, `none` where it stays null. The return value
is not looked at by its callers. -/
def rsaEnc (pubkey : RsaPub) (inp : Bytes) : Option Bytes :=
  if pubkey.size < 1 then none else pubkey.publicEncrypt inp

/-- The encrypted block fits the memory allocated for it. -/
def RsaEncFits (pubkey : RsaPub) (inp : Bytes) : Prop :=
  ∀ out, rsaEnc pubkey inp = some out → out.length ≤ rsaBuflen inp.length pubkey.size

instance (pubkey : RsaPub) (inp : Bytes) : Decidable (RsaEncFits pubkey inp) :=
  match h : rsaEnc pubkey inp with
  | none => isTrue (by simp [RsaEncFits, h])
  | some out => decidable_of_iff (out.length ≤ rsaBuflen inp.length pubkey.size)
      (by simp [RsaEncFits, h])

/-- `rsa_dec`. -/
def rsaDec (priv : RsaPrv) (inp : Bytes) : Option Bytes :=
  if priv.size < 1 then none else priv.privateDecrypt inp

theorem rsaEnc_length {pubkey : RsaPub} {inp out : Bytes} (h : rsaEnc pubkey inp = some out) :
    out.length = pubkey.size ∧ inp.length + 11 ≤ pubkey.size := by
  rw [rsaEnc] at h
  split_ifs at h
  exact pubkey.encrypt_length inp out h

theorem rsaEnc_single (plain cipher : Bytes) (h : plain.length + 11 ≤ cipher.length) :
    rsaEnc (RsaPub.single plain cipher h) plain = some cipher := by
  have hsize : ¬ (RsaPub.single plain cipher h).size < 1 := by
    simp only [RsaPub.single]
    omega
  rw [rsaEnc, if_neg hsize]
  exact if_pos rfl

theorem rsaDec_single (plain cipher : Bytes) (h : 0 < plain.length) (hc : 0 < cipher.length) :
    rsaDec (RsaPrv.single plain cipher h) cipher = some plain := by
  have hsize : ¬ (RsaPrv.single plain cipher h).size < 1 := by
    simp only [RsaPrv.single]
    omega
  rw [rsaDec, if_neg hsize]
  exact if_pos rfl

/-- Only an empty input is given too little memory. -/
theorem rsaEncFits_of_pos (pubkey : RsaPub) {inp : Bytes} (h : 0 < inp.length) :
    RsaEncFits pubkey inp := by
  intro out hout
  rw [(rsaEnc_length hout).1, rsaBuflen]
  by_cases hz : inp.length % pubkey.size = 0
  · have hle : pubkey.size ≤ inp.length := Nat.le_of_dvd h (Nat.dvd_of_mod_eq_zero hz)
    rw [if_neg (by simp [hz])]
    omega
  · rw [if_pos hz]
    have := Nat.mod_le inp.length pubkey.size
    omega

/-! ### msg_aes_enc, msg_aes_dec -/

/-- `msg_aes_enc` into `buffer`: cipher text, tag and trailer byte. -/
def msgAesEnc (G : Gcm) (key iv inp buffer : Bytes) (lim : ℕ) : Option (Bytes × ℕ) :=
  if lim < inp.length + 1 + aesIvBytes then none
  else
    match G.encrypt key iv inp with
    | none => none
    | some (cipher, tag) =>
      let len := cipher.length
      let buffer := memcpy buffer 0 cipher
      let buffer := memcpy buffer len tag
      let buffer := memcpy buffer (len + aesIvBytes) [encryptAes]
      some (buffer, len + aesIvBytes + 1)

/-- `msg_aes_dec` into `buf`: the buffer afterwards and the length, or an error. -/
def msgAesDec (G : Gcm) (key iv inp buf : Bytes) (lenin lim : ℕ) : Bytes × Option ℕ :=
  if maxMsg + 1 < lenin then (buf, none)
  else if lenin < aesIvBytes + 1 then (buf, none)
  else if lim < lenin - 1 - aesIvBytes then (buf, none)
  else
    let tag := (inp.drop (lenin - 1 - aesIvBytes)).take aesIvBytes
    let r := G.decrypt key iv (inp.take (lenin - 1 - aesIvBytes)) tag
    (memcpy buf 0 r.1, if r.2 then some r.1.length else none)

/-- What `msg_aes_enc` leaves in the buffer is the encryption and its trailer. -/
theorem msgAesEnc_take {G : Gcm} {key iv inp buffer b : Bytes} {lim n : ℕ}
    (hlim : lim ≤ buffer.length) (h : msgAesEnc G key iv inp buffer lim = some (b, n)) :
    ∃ cipher tag, G.encrypt key iv inp = some (cipher, tag) ∧ n = inp.length + aesIvBytes + 1 ∧
      n ≤ lim ∧ b.length = buffer.length ∧ b.take n = cipher ++ tag ++ [encryptAes] := by
  rw [msgAesEnc] at h
  split_ifs at h with hfit
  cases henc : G.encrypt key iv inp with
  | none => simp [henc] at h
  | some ct =>
    obtain ⟨cipher, tag⟩ := ct
    obtain ⟨hc, ht⟩ := G.encrypt_length _ _ _ _ _ henc
    simp only [henc, Option.some.injEq, Prod.mk.injEq] at h
    obtain ⟨hb, hn⟩ := h
    simp only [aesIvBytes] at *
    have h1 : (memcpy buffer 0 cipher).length = buffer.length := memcpy_length (by omega)
    have h2 : (memcpy (memcpy buffer 0 cipher) cipher.length tag).length = buffer.length :=
      (memcpy_length (by omega)).trans h1
    have h3 : b.length = buffer.length := by
      rw [← hb]
      exact (memcpy_length (by simp; omega)).trans h2
    refine ⟨cipher, tag, rfl, by omega, by omega, h3, ?_⟩
    rw [← hb, ← hn, memcpy_take_end (by omega) (by simp), memcpy_take_end (by omega) (by omega),
      memcpy_take_end (by omega) (by omega)]
    simp

theorem msgAesEnc_isSome_iff (G : Gcm) (key iv inp buffer : Bytes) (lim : ℕ) :
    (msgAesEnc G key iv inp buffer lim).isSome ↔
      inp.length + 1 + aesIvBytes ≤ lim ∧ (G.encrypt key iv inp).isSome := by
  rw [msgAesEnc]
  simp only [aesIvBytes]
  split_ifs with h
  · simp
    omega
  · cases G.encrypt key iv inp with
    | none => simp
    | some ct =>
      simp
      omega

end MemoryLeak.Notify
