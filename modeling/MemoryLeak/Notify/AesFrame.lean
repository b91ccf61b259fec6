import MemoryLeak.Notify.Drain

/-!
# Frames of AES-GCM

`gcm_encrypt` and `gcm_decrypt` over the calls of `EVP`, and the frames that `msg_aes_enc` and
`msg_aes_dec` make of them with their pointers, lengths and limits as the source has them. The
encoder adds the length of the trailer to that of the text in an `int`.
-/
namespace MemoryLeak.Notify
open MemoryLeak.CBytes

/-- The calls of `EVP` on a context of `EVP_aes_256_gcm`: as many bytes come out as go in, and
`EVP_EncryptFinal_ex` and `EVP_DecryptFinal_ex` add none. -/
structure Evp where
  encryptUpdate : (key iv aad text : Bytes) → Bytes
  getTag : (key iv aad text : Bytes) → Bytes
  decryptUpdate : (key iv aad text : Bytes) → Bytes
  decryptFinal : (key iv aad text tag : Bytes) → Bool
  encrypt_length : ∀ key iv aad text, (encryptUpdate key iv aad text).length = text.length
  tag_length : ∀ key iv aad text, (getTag key iv aad text).length = aesIvBytes
  decrypt_length : ∀ key iv aad text, (decryptUpdate key iv aad text).length = text.length

/-- Decryption undoes encryption, and no other tag is accepted for its text. -/
structure Evp.Lawful (E : Evp) : Prop where
  undo : ∀ key iv aad text,
    E.decryptUpdate key iv aad (E.encryptUpdate key iv aad text) = text
  accept : ∀ key iv aad text,
    E.decryptFinal key iv aad (E.encryptUpdate key iv aad text) (E.getTag key iv aad text) = true
  reject : ∀ key iv aad text tag, tag ≠ E.getTag key iv aad text →
    E.decryptFinal key iv aad (E.encryptUpdate key iv aad text) tag = false

/-- `gcm_encrypt`: the bytes at `ciphertext` and `tag`, and what it returns. -/
def gcmEncrypt (E : Evp) (plaintext aad key iv : Bytes) : Bytes × Bytes × ℤ :=
  let ciphertext := E.encryptUpdate key iv aad plaintext
  (ciphertext, E.getTag key iv aad plaintext, ciphertext.length)

/-- `gcm_decrypt`: the bytes at `plaintext` and what it returns. -/
def gcmDecrypt (E : Evp) (ciphertext aad tag key iv : Bytes) : Bytes × ℤ :=
  let plaintext := E.decryptUpdate key iv aad ciphertext
  (plaintext, if E.decryptFinal key iv aad ciphertext tag then plaintext.length else -1)

/-- The output buffer after a call, the value returned, and `*lenout` where it is set. -/
structure AesOut where
  buffer : Bytes
  err : ℕ
  lenout : Option ℕ
  deriving DecidableEq

/-- `msg_aes_enc` on pointers that may be null, `lenout` telling whether that one is not; the
text is `lenin` bytes at `in`. Without an outcome a byte is written outside the buffer. -/
def msgAesEncFrame (E : Evp) (inp buffer key iv : Option Bytes) (lenout : Bool) (lim : ℤ) :
    Option AesOut :=
  match inp, buffer, key, iv, lenout with
  | some inp, some buffer, some key, some iv, true =>
    if lim < toInt (inp.length + 1 + aesIvBytes) then some ⟨buffer, 1, none⟩
    else if buffer.length < inp.length + aesIvBytes + 1 then none
    else
      let iv := iv.take aesIvBytes
      let r := gcmEncrypt E inp iv (key.take aesBytes) iv
      let buffer := memcpy buffer 0 r.1
      if r.2.2 < 0 then some ⟨buffer, 1, none⟩
      else
        let len := r.2.2.toNat
        let buffer := memcpy buffer len r.2.1
        let buffer := memcpy buffer (len + aesIvBytes) [encryptAes]
        some ⟨buffer, 0, some (len + aesIvBytes + 1)⟩
  | _, buffer, _, _, _ => some ⟨buffer.getD [], 1, none⟩

/-- `msg_aes_dec` on pointers that may be null. -/
def msgAesDecFrame (E : Evp) (inp buf key iv : Option Bytes) (lenout : Bool) (lenin lim : ℤ) :
    AesOut :=
  match inp, buf, key, iv, lenout with
  | some inp, some buf, some key, some iv, true =>
    if maxMsg + 1 < lenin then ⟨buf, 1, none⟩
    else if lenin < aesIvBytes + 1 then ⟨buf, 1, none⟩
    else if lim < lenin - 1 - aesIvBytes then ⟨buf, 1, none⟩
    else
      let n := (lenin - 1 - aesIvBytes).toNat
      let tag := (inp.drop n).take aesIvBytes
      let iv := iv.take aesIvBytes
      let r := gcmDecrypt E (inp.take n) iv tag (key.take aesBytes) iv
      if r.2 < 0 then ⟨memcpy buf 0 r.1, 1, some 0⟩ else ⟨memcpy buf 0 r.1, 0, some r.2.toNat⟩
  | _, buf, _, _, _ => ⟨buf.getD [], 1, none⟩

/-! ### The frames by value -/

/-- The encryption as the other modules have it. -/
def Evp.gcm (E : Evp) : Gcm where
  encrypt := fun key iv plain =>
    some (E.encryptUpdate (key.take aesBytes) (iv.take aesIvBytes) (iv.take aesIvBytes) plain,
      E.getTag (key.take aesBytes) (iv.take aesIvBytes) (iv.take aesIvBytes) plain)
  decrypt := fun key iv cipher tag =>
    (E.decryptUpdate (key.take aesBytes) (iv.take aesIvBytes) (iv.take aesIvBytes) cipher,
      E.decryptFinal (key.take aesBytes) (iv.take aesIvBytes) (iv.take aesIvBytes) cipher tag)
  encrypt_length := by
    intro key iv plain cipher tag h
    cases h
    exact ⟨E.encrypt_length _ _ _ _, E.tag_length _ _ _ _⟩
  decrypt_length := fun _ _ _ _ => E.decrypt_length _ _ _ _

theorem Evp.Lawful.gcm {E : Evp} (h : E.Lawful) : E.gcm.Lawful where
  total := fun _ _ _ => rfl
  undo := by
    intro key iv plain cipher tag henc
    cases henc
    exact Prod.ext (h.undo _ _ _ _) (h.accept _ _ _ _)

section Frame

variable (E : Evp) (key iv : Bytes)

/-- While the sum is an `int`, the encoder is `msgAesEnc`. -/
theorem msgAesEncFrame_eq {plain buffer : Bytes} {lim : ℕ}
    (hsum : plain.length + 1 + aesIvBytes < 2 ^ 31) (hlim : lim ≤ buffer.length) :
    msgAesEncFrame E (some plain) (some buffer) (some key) (some iv) true lim =
      some (match msgAesEnc E.gcm key iv plain buffer lim with
        | none => ⟨buffer, 1, none⟩
        | some (b, n) => ⟨b, 0, some n⟩) := by
  simp only [msgAesEncFrame, msgAesEnc, toInt_of_lt hsum]
  by_cases hfit : lim < plain.length + 1 + aesIvBytes
  · rw [if_pos (by omega), if_pos hfit]
  · rw [if_neg (by omega), if_neg hfit, if_neg (by omega)]
    simp only [gcmEncrypt, Evp.gcm, Int.toNat_natCast]
    split_ifs with hneg
    · omega
    · rfl

/-- What the frames of a text have to be: it comes back out of one that fits, one that does not
fit is refused, and so are frames of a wrong length or under a wrong tag. -/
structure AesFrames (plain : Bytes) : Prop where
  encodes : ∀ (lim : ℕ) (buffer : Bytes), plain.length + 17 ≤ lim → lim ≤ maxMsg + 1 →
    lim ≤ buffer.length → ∃ b,
      msgAesEncFrame E (some plain) (some buffer) (some key) (some iv) true lim =
        some ⟨b, 0, some (plain.length + 17)⟩ ∧
      b.length = buffer.length ∧ byteAt b (plain.length + 16) = encryptAes ∧
      ∀ (lim' : ℕ) (buf : Bytes), plain.length ≤ lim' → lim' ≤ buf.length →
        msgAesDecFrame E (some (b.take (plain.length + 17))) (some buf) (some key) (some iv) true
          (plain.length + 17) lim' = ⟨memcpy buf 0 plain, 0, some plain.length⟩
  refuses : ∀ (lim : ℤ) (buffer : Bytes), -2 ^ 31 ≤ lim → lim < 2 ^ 31 → lim < plain.length + 17 →
    msgAesEncFrame E (some plain) (some buffer) (some key) (some iv) true lim =
      some ⟨buffer, 1, none⟩
  length : ∀ (frame buf : Bytes) (lenin lim : ℤ), lenin < 17 ∨ maxMsg + 1 < lenin →
    msgAesDecFrame E (some frame) (some buf) (some key) (some iv) true lenin lim = ⟨buf, 1, none⟩
  tag : ∀ (cipher tag buf : Bytes) (enc : UInt8) (lim : ℤ), tag.length = 16 →
    E.decryptFinal (key.take aesBytes) (iv.take aesIvBytes) (iv.take aesIvBytes) cipher tag =
      false →
    (msgAesDecFrame E (some (cipher ++ tag ++ [enc])) (some buf) (some key) (some iv) true
      (cipher.length + 17) lim).err = 1
  other : ∀ (tag buf : Bytes) (enc : UInt8) (lim : ℤ), tag.length = 16 →
    tag ≠ E.getTag (key.take aesBytes) (iv.take aesIvBytes) (iv.take aesIvBytes) plain →
    (msgAesDecFrame E (some (E.encryptUpdate (key.take aesBytes) (iv.take aesIvBytes)
      (iv.take aesIvBytes) plain ++ tag ++ [enc])) (some buf) (some key) (some iv) true
      (plain.length + 17) lim).err = 1

/-- A frame of a wrong length is refused before anything is written. -/
theorem dec_length (frame buf : Bytes) {lenin : ℤ} (lim : ℤ)
    (h : lenin < 17 ∨ maxMsg + 1 < lenin) :
    msgAesDecFrame E (some frame) (some buf) (some key) (some iv) true lenin lim =
      ⟨buf, 1, none⟩ := by
  simp only [msgAesDecFrame]
  by_cases hlong : maxMsg + 1 < lenin
  · rw [if_pos hlong]
  · rw [if_neg hlong, if_pos]
    simp only [aesIvBytes]
    omega

/-- The checks passed, the frame is that of its text and tag. -/
theorem dec_frame {cipher tag : Bytes} (buf : Bytes) (enc : UInt8) {lim : ℤ}
    (htag : tag.length = 16) (hle : cipher.length + 17 ≤ maxMsg + 1)
    (hlim : (cipher.length : ℤ) ≤ lim) :
    msgAesDecFrame E (some (cipher ++ tag ++ [enc])) (some buf) (some key) (some iv) true
        (cipher.length + 17) lim =
      let text := E.decryptUpdate (key.take aesBytes) (iv.take aesIvBytes) (iv.take aesIvBytes)
        cipher
      if E.decryptFinal (key.take aesBytes) (iv.take aesIvBytes) (iv.take aesIvBytes) cipher tag
      then ⟨memcpy buf 0 text, 0, some cipher.length⟩ else ⟨memcpy buf 0 text, 1, some 0⟩ := by
  have hn : ((cipher.length : ℤ) + 17 - 1 - aesIvBytes).toNat = cipher.length := by
    simp only [aesIvBytes]
    omega
  have hlength := E.decrypt_length (key.take aesBytes) (iv.take aesIvBytes) (iv.take aesIvBytes)
    cipher
  have hcipher : (cipher ++ tag ++ [enc]).take cipher.length = cipher := by
    rw [List.append_assoc, List.take_left' rfl]
  have hbytes : ((cipher ++ tag ++ [enc]).drop cipher.length).take aesIvBytes = tag := by
    rw [List.append_assoc, List.drop_left' rfl, List.take_left' htag]
  simp only [msgAesDecFrame, hn]
  rw [if_neg (by omega), if_neg (by simp only [aesIvBytes]; omega),
    if_neg (by simp only [aesIvBytes]; omega), hcipher, hbytes]
  simp only [gcmDecrypt]
  split_ifs with hok hneg
  · omega
  · rw [Int.toNat_natCast, hlength]
  · rfl
  · omega

/-- A wrong tag is refused, whatever the limit. -/
theorem dec_wrong_tag {cipher tag : Bytes} (buf : Bytes) (enc : UInt8) (lim : ℤ)
    (htag : tag.length = 16)
    (hwrong : E.decryptFinal (key.take aesBytes) (iv.take aesIvBytes) (iv.take aesIvBytes) cipher
      tag = false) :
    (msgAesDecFrame E (some (cipher ++ tag ++ [enc])) (some buf) (some key) (some iv) true
      (cipher.length + 17) lim).err = 1 := by
  by_cases hle : cipher.length + 17 ≤ maxMsg + 1
  · by_cases hlim : (cipher.length : ℤ) ≤ lim
    · rw [dec_frame E key iv buf enc htag hle hlim]
      simp only [hwrong]
      rfl
    · simp only [msgAesDecFrame]
      rw [if_neg (by omega), if_neg (by simp only [aesIvBytes]; omega),
        if_pos (by simp only [aesIvBytes]; omega)]
  · rw [dec_length E key iv _ buf lim (Or.inr (by omega))]

/-- A text that fits is encrypted into a frame that is decrypted to it. -/
theorem enc_dec {E : Evp} (hE : E.Lawful) {plain buffer : Bytes} {lim : ℕ}
    (hfit : plain.length + 17 ≤ lim) (hmax : lim ≤ maxMsg + 1) (hlim : lim ≤ buffer.length) :
    ∃ b, msgAesEncFrame E (some plain) (some buffer) (some key) (some iv) true lim =
        some ⟨b, 0, some (plain.length + 17)⟩ ∧
      b.length = buffer.length ∧ byteAt b (plain.length + 16) = encryptAes ∧
      ∀ (lim' : ℕ) (buf : Bytes), plain.length ≤ lim' → lim' ≤ buf.length →
        msgAesDecFrame E (some (b.take (plain.length + 17))) (some buf) (some key) (some iv) true
          (plain.length + 17) lim' = ⟨memcpy buf 0 plain, 0, some plain.length⟩ := by
  have hsome : (msgAesEnc E.gcm key iv plain buffer lim).isSome := by
    rw [msgAesEnc_isSome_iff]
    exact ⟨by simp only [aesIvBytes]; omega, rfl⟩
  obtain ⟨⟨b, n⟩, hb⟩ := Option.isSome_iff_exists.mp hsome
  obtain ⟨cipher, tag, henc, hn, _, hlen, htake⟩ := msgAesEnc_take hlim hb
  obtain ⟨hc, ht⟩ := E.gcm.encrypt_length _ _ _ _ _ henc
  have hn : n = plain.length + 17 := hn
  subst hn
  refine ⟨b, ?_, hlen, ?_, ?_⟩
  · have hsum : plain.length + 1 + aesIvBytes < 2 ^ 31 := by
      simp only [maxMsg] at hmax
      simp only [aesIvBytes]
      omega
    rw [msgAesEncFrame_eq E key iv hsum hlim, hb]
  · rw [← byteAt_take b (show plain.length + 16 < plain.length + 17 by omega), htake,
      byteAt_append_right _ _ (by simp [hc, ht]), List.length_append, hc, ht]
    simp [byteAt]
  · intro lim' buf hle _
    have hdec := @dec_frame E key iv cipher tag buf encryptAes lim' ht (by omega) (by omega)
    rw [htake, ← hc, hdec]
    cases henc
    simp only [hE.undo, hE.accept, if_true]

/-- A text whose frame is longer than an `int` counts is not refused. -/
theorem enc_not_refused {plain : Bytes} (buffer : Bytes) (h31 : plain.length < 2 ^ 31)
    (h : ¬ plain.length + 17 < 2 ^ 31) :
    msgAesEncFrame E (some plain) (some buffer) (some key) (some iv) true 0 ≠
      some ⟨buffer, 1, none⟩ := by
  have hwrap : toInt (plain.length + 1 + aesIvBytes) < 0 := by
    have hge : 2 ^ 31 ≤ plain.length + 1 + aesIvBytes := by
      simp only [aesIvBytes]
      omega
    have hlt : plain.length + 1 + aesIvBytes < 2 ^ 32 := by
      simp only [aesIvBytes]
      omega
    rw [toInt_of_ge hge hlt]
    omega
  simp only [msgAesEncFrame]
  rw [if_neg (by omega)]
  split_ifs with hroom hneg
  · simp
  · simp [gcmEncrypt] at hneg
    omega
  · simp

end Frame

/-- The frames of a text that an `int` counts are as they have to be exactly when an `int` also
counts the 17 bytes of the tag and the trailer. -/
theorem aes_frames_iff {E : Evp} (hE : E.Lawful) (key iv : Bytes) {plain : Bytes}
    (hint : plain.length < 2 ^ 31) :
    AesFrames E key iv plain ↔ plain.length + 17 < 2 ^ 31 := by
  constructor
  · intro h
    by_contra hwrap
    exact enc_not_refused E key iv [] hint hwrap
      (h.refuses 0 [] (by norm_num) (by norm_num) (by omega))
  · intro hsum
    refine ⟨fun lim buffer => enc_dec key iv hE, ?_, ?_, ?_, ?_⟩
    · intro lim buffer _ _ hlim
      have hint : toInt (plain.length + 1 + aesIvBytes) = ((plain.length + 17 : ℕ) : ℤ) :=
        toInt_of_lt hsum
      simp only [msgAesEncFrame]
      rw [hint, if_pos (by omega)]
    · exact fun frame buf lenin lim h => dec_length E key iv frame buf lim h
    · exact fun cipher tag buf enc lim => dec_wrong_tag E key iv buf enc lim
    · intro tag buf enc lim htag hother
      have hwrong := hE.reject (key.take aesBytes) (iv.take aesIvBytes) (iv.take aesIvBytes) plain
        tag hother
      have herr := dec_wrong_tag E key iv buf enc lim htag hwrong
      rwa [E.encrypt_length] at herr

/-- One recorded encryption under one key, and elsewhere a cipher that leaves its text. -/
def Evp.recorded (key iv aad text cipher tag : Bytes) (hc : cipher.length = text.length)
    (ht : tag.length = aesIvBytes) : Evp :=
  let swap := fun k i a t =>
    if (k, i, a) = (key, iv, aad) ∧ t = text then cipher
    else if (k, i, a) = (key, iv, aad) ∧ t = cipher then text
    else t
  let tagOf := fun k i a t =>
    if (k, i, a) = (key, iv, aad) ∧ t = text then tag else zeros aesIvBytes
  have hswap : ∀ k i a t, (swap k i a t).length = t.length := by
    intro k i a t
    simp only [swap]
    split_ifs with h1 h2
    · rw [h1.2, hc]
    · rw [h2.2, hc]
    · rfl
  { encryptUpdate := swap
    getTag := tagOf
    decryptUpdate := swap
    decryptFinal := fun k i a c t => decide (t = tagOf k i a (swap k i a c))
    encrypt_length := hswap
    tag_length := by
      intro k i a t
      simp only [tagOf]
      split_ifs
      · exact ht
      · exact zeros_length _
    decrypt_length := hswap }

theorem Evp.recorded_lawful {key iv aad text cipher tag : Bytes}
    (hc : cipher.length = text.length) (ht : tag.length = aesIvBytes) :
    (Evp.recorded key iv aad text cipher tag hc ht).Lawful := by
  have hundo : ∀ k i a t, (Evp.recorded key iv aad text cipher tag hc ht).decryptUpdate k i a
      ((Evp.recorded key iv aad text cipher tag hc ht).encryptUpdate k i a t) = t := by
    intro k i a t
    simp only [Evp.recorded]
    split_ifs with h1 h2 h3 h4 h5 <;> simp_all
  have hfinal : ∀ k i a c t,
      (Evp.recorded key iv aad text cipher tag hc ht).decryptFinal k i a c t =
        decide (t = (Evp.recorded key iv aad text cipher tag hc ht).getTag k i a
        ((Evp.recorded key iv aad text cipher tag hc ht).decryptUpdate k i a c)) :=
    fun _ _ _ _ _ => rfl
  refine ⟨hundo, ?_, ?_⟩
  · intro k i a t
    rw [hfinal, hundo, decide_eq_true rfl]
  · intro k i a t tag' hne
    rw [hfinal, hundo, decide_eq_false hne]

/-- The encryption of `hi` under the key of the server. -/
def recordedEvp : Evp :=
  Evp.recorded aesKey ivBytes ivBytes [104, 105] [132, 47]
    [120, 155, 39, 150, 244, 97, 88, 121, 73, 84, 61, 38, 250, 98, 53, 70] rfl rfl

theorem recordedEvp_lawful : recordedEvp.Lawful := Evp.recorded_lawful _ _

theorem aes_frames_sample : AesFrames recordedEvp aesKey ivBytes [104, 105] :=
  (aes_frames_iff recordedEvp_lawful aesKey ivBytes (by decide)).mpr (by decide)

/-- For a text of `INT_MAX` - 16 bytes the sum is negative, and a buffer of 1201 bytes is taken
to be large enough. -/
theorem long_text_not_refused :
    ¬ ∀ (E : Evp), E.Lawful → ∀ key iv plain : Bytes, plain.length < 2 ^ 31 →
      AesFrames E key iv plain := by
  intro h
  have hlen : (List.replicate (2 ^ 31 - 17) (0 : UInt8)).length = 2 ^ 31 - 17 :=
    List.length_replicate
  have hint : (List.replicate (2 ^ 31 - 17) (0 : UInt8)).length < 2 ^ 31 := by
    rw [hlen]
    norm_num
  have hframes := h recordedEvp recordedEvp_lawful aesKey ivBytes _ hint
  refine enc_not_refused recordedEvp aesKey ivBytes [] hint ?_
    (hframes.refuses 0 [] (by norm_num) (by norm_num) (by omega))
  rw [hlen]
  norm_num

end MemoryLeak.Notify
