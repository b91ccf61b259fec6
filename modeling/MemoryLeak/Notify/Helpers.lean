import MemoryLeak.CText
import MemoryLeak.Notify.Cipher
import Mathlib.Data.List.TakeDrop

/-!
# What the helpers report

`file_2_bytes`, `file_2_pubrsa`, `rsa_enc`, `ntf_aes_file`, and the two senders that encrypt
with a key from a file, over every outcome of the calls they make. The clean-up of a file
assigns to the variable that holds the error.
-/
namespace MemoryLeak.Notify
open MemoryLeak.CBytes MemoryLeak.CText

/-! ### file_2_bytes -/

/-- What the calls on a file that is read return: the bytes behind `fopen`, the end of the file
as `ftell` tells it, the bytes that `fread` gets at most, and the value of `fclose`. -/
structure FileCalls where
  fopen : Option Bytes
  ftell : ℤ
  fread : ℕ
  fclose : ℤ

/-- `sz`, an `unsigned int`. -/
def FileCalls.sz (w : FileCalls) : ℕ := (w.ftell % 2 ^ 32).toNat

/-- The size of the block allocated, `sz + 1` as an `unsigned int`. -/
def FileCalls.room (w : FileCalls) : ℕ := (w.sz + 1) % 2 ^ 32

/-- `n`: what `fread` returns for `sz` bytes. -/
def FileCalls.n (w : FileCalls) (file : Bytes) : ℕ := min w.fread (min w.sz file.length)

/-- The value returned, and the block at `*output`, which is null at first. -/
structure FileBytes where
  err : ℤ
  output : Option Bytes

/-- `file_2_bytes`. `*output` is looked at even when `output` is null. -/
def file2Bytes (w : FileCalls) (path : Option Bytes) (output : Bool) : Option FileBytes :=
  if output then
    match path with
    | none => some ⟨1, none⟩
    | some _ =>
      match w.fopen with
      | none => some ⟨1, none⟩
      | some file =>
        if w.room < w.n file then none
        -- `err = fclose(fp)` comes after the short read
        else if w.n file ≠ w.sz then some ⟨w.fclose, none⟩
        else some ⟨w.fclose, some (file.take w.sz)⟩
  else none

/-- The whole file is read. -/
def FileCalls.Whole (w : FileCalls) (file : Bytes) : Prop :=
  w.sz = file.length ∧ file.length ≤ w.fread

/-- `file_2_bytes` returns 0 only with all bytes of the file. -/
def ReadReported (w : FileCalls) (path : Option Bytes) (output : Bool) : Prop :=
  ∃ r, file2Bytes w path output = some r ∧
    (r.err = 0 → ∃ file, w.fopen = some file ∧ r.output = some file)

/-- The file is not opened; or the block holds what is read, and the file is read as a whole or
`fclose` fails. -/
def ReadGood (w : FileCalls) (path : Option Bytes) (output : Bool) : Prop :=
  output = true ∧ ∀ file, path.isSome → w.fopen = some file →
    w.n file ≤ w.room ∧ (w.Whole file ∨ w.fclose ≠ 0)

theorem n_eq_sz_iff (w : FileCalls) (file : Bytes) :
    w.n file = w.sz ∧ file.take w.sz = file ↔ w.Whole file := by
  unfold FileCalls.n FileCalls.Whole
  rw [List.take_eq_self_iff]
  omega

theorem read_reported_iff (w : FileCalls) (path : Option Bytes) (output : Bool) :
    ReadReported w path output ↔ ReadGood w path output := by
  unfold ReadReported ReadGood file2Bytes
  cases output with
  | false => simp
  | true =>
    cases path with
    | none => simp
    | some p =>
      cases hopen : w.fopen with
      | none => simp
      | some file =>
        have hwhole := n_eq_sz_iff w file
        by_cases hroom : w.n file ≤ w.room
        · have hfit : ¬ w.room < w.n file := by omega
          by_cases hn : w.n file = w.sz
          · rw [hn] at hfit hroom
            simp [hfit, hroom, hn, ← hwhole]
            tauto
          · have hnot : ¬ w.Whole file := fun h => hn (hwhole.mpr h).1
            simp [hfit, hroom, hn, hnot]
        · have hover : w.room < w.n file := by omega
          simp [hroom, hover]

/-! ### rsa_enc -/

/-- What `rsa_enc` returns, the block at `*out`, and the value at `*outlen` where it is set. -/
structure RsaEncRet where
  err : ℤ
  out : Option Bytes
  outlen : Option ℕ

/-- `rsa_enc` with its return value: `err` is set for null pointers only. A block that does not
fit the memory allocated for it gives `none`. -/
def rsaEncRet (pubkey : Option RsaPub) (inp : Bytes) (out outlen : Bool) : Option RsaEncRet :=
  match pubkey with
  | none => some ⟨1, none, none⟩
  | some pubkey =>
    if out then
      if RsaEncFits pubkey inp then
        match rsaEnc pubkey inp with
        | none => some ⟨0, none, none⟩
        | some buf => some ⟨0, some buf, if outlen then some buf.length else none⟩
      else none
    else some ⟨1, none, none⟩

/-- `rsa_enc` returns 0 only with a block and its length. -/
def EncReported (pubkey : Option RsaPub) (inp : Bytes) (out outlen : Bool) : Prop :=
  ∃ r, rsaEncRet pubkey inp out outlen = some r ∧
    (r.err = 0 → ∃ buf, r.out = some buf ∧ r.outlen = some buf.length)

/-- `RSA_size` and `RSA_public_encrypt` give a result. -/
def Encrypts (k : RsaPub) (inp : Bytes) : Prop := 1 ≤ k.size ∧ (k.publicEncrypt inp).isSome

/-- A call with all its pointers encrypts a message that has a byte. -/
def EncGood (pubkey : Option RsaPub) (inp : Bytes) (out outlen : Bool) : Prop :=
  ∀ k, pubkey = some k → out = true → outlen = true ∧ inp ≠ [] ∧ Encrypts k inp

theorem rsaEnc_isSome_iff (k : RsaPub) (inp : Bytes) :
    (rsaEnc k inp).isSome ↔ Encrypts k inp := by
  unfold rsaEnc Encrypts
  by_cases hsize : k.size < 1
  · rw [if_pos hsize]
    simp only [Option.isSome_none, Bool.false_eq_true, false_iff]
    omega
  · rw [if_neg hsize]
    exact ⟨fun h => ⟨by omega, h⟩, fun h => h.2⟩

/-- An empty input is not encrypted, or its block does not fit. -/
theorem rsaEncFits_nil {k : RsaPub} {buf : Bytes} (h : rsaEnc k [] = some buf) :
    ¬ RsaEncFits k [] := by
  intro hfits
  have hle := hfits buf h
  obtain ⟨hlen, hsize⟩ := rsaEnc_length h
  have hbuflen : rsaBuflen 0 k.size = 1 := by simp [rsaBuflen]
  rw [hlen, List.length_nil, hbuflen] at hle
  omega

theorem enc_reported_iff (pubkey : Option RsaPub) (inp : Bytes) (out outlen : Bool) :
    EncReported pubkey inp out outlen ↔ EncGood pubkey inp out outlen := by
  unfold EncReported EncGood rsaEncRet
  cases pubkey with
  | none => simp
  | some k =>
    cases out with
    | false => simp
    | true =>
      have henc := rsaEnc_isSome_iff k inp
      cases hbuf : rsaEnc k inp with
      | none =>
        rw [hbuf] at henc
        simp at henc
        simp [hbuf, henc]
      | some buf =>
        rw [hbuf] at henc
        simp at henc
        by_cases hnil : inp = []
        · rw [hnil] at hbuf ⊢
          simp [rsaEncFits_nil hbuf]
        · have hfits := rsaEncFits_of_pos k (List.length_pos_of_ne_nil hnil)
          cases outlen with
          | false => simp [hbuf, hfits]
          | true => simp [hbuf, hfits, henc, hnil]

/-! ### ntf_aes_file -/

/-- What the calls of `ntf_aes_file` return. `AES_cfb128_encrypt` starts each block from the
same `ivec`, and the counts of `fread` and `fwrite` are by the turn of the loop. -/
structure AesFileCalls where
  fopenIn : Option Bytes
  fopenOut : Bool
  setKey : ℤ
  cfb : Bytes → Bytes
  fread : ℕ → ℕ
  fwrite : ℕ → ℕ
  fcloseIn : ℤ
  fcloseOut : ℤ
  cfb_length : ∀ block, (cfb block).length = block.length

@[simp] abbrev aesBlockSize : ℕ := 16

/-- The inner loop on what is left of the file, from turn `i` on: the bytes written and `err`.
A turn takes a whole block or is the last one. -/
def aesFileLoop (w : AesFileCalls) : ℕ → ℕ → Bytes → Bytes × ℤ
  | 0, _, _ => ([], 0)
  | fuel + 1, i, rest =>
    let k := min (w.fread i) (min aesBlockSize rest.length)
    if k < 1 then ([], 0)
    else
      let bout := w.cfb (field aesBlockSize (rest.take k))
      let l := min (w.fwrite i) k
      if l ≠ k then (bout.take l, 1)
      else if k < aesBlockSize then (bout.take k, 0)
      else
        let r := aesFileLoop w fuel (i + 1) (rest.drop k)
        (bout.take k ++ r.1, r.2)

/-- The value returned, and the bytes in the file written. -/
structure AesFile where
  err : ℤ
  out : Bytes

/-- `ntf_aes_file`: each `fclose` assigns to `err`. -/
def ntfAesFile (w : AesFileCalls) (inp out : Option Bytes) : AesFile :=
  match inp, out with
  | some _, some _ =>
    match w.fopenIn with
    | none => ⟨1, []⟩
    | some file =>
      if w.fopenOut then
        if w.setKey ≠ 0 then ⟨w.fcloseOut, []⟩
        else ⟨w.fcloseOut, (aesFileLoop w (file.length + 1) 0 file).1⟩
      else ⟨w.fcloseIn, []⟩
  | _, _ => ⟨1, []⟩

/-- The file, transformed block by block. -/
def cfbFile (cfb : Bytes → Bytes) : ℕ → Bytes → Bytes
  | 0, _ => []
  | fuel + 1, rest =>
    if rest = [] then []
    else
      (cfb (field aesBlockSize (rest.take aesBlockSize))).take (rest.take aesBlockSize).length ++
        cfbFile cfb fuel (rest.drop aesBlockSize)

/-- `ntf_aes_file` returns 0 only with the whole file transformed and written. -/
def AesReported (w : AesFileCalls) (inp out : Option Bytes) : Prop :=
  (ntfAesFile w inp out).err = 0 → ∃ file, w.fopenIn = some file ∧ w.fopenOut = true ∧
    (ntfAesFile w inp out).out = cfbFile w.cfb (file.length + 1) file

/-- Every turn reads and writes all that there is of its block. -/
def FullTurns (w : AesFileCalls) (i : ℕ) (rest : Bytes) : Prop :=
  ∀ j, aesBlockSize * j < rest.length →
    min aesBlockSize (rest.length - aesBlockSize * j) ≤ w.fread (i + j) ∧
      min aesBlockSize (rest.length - aesBlockSize * j) ≤ w.fwrite (i + j)

/-- The file to read is not opened; or the one to write is not, and the first `fclose` fails; or
the last `fclose` fails, or nothing before it did. -/
def AesGood (w : AesFileCalls) (inp out : Option Bytes) : Prop :=
  ∀ file, inp.isSome → out.isSome → w.fopenIn = some file →
    if w.fopenOut then
      w.fcloseOut ≠ 0 ∨ file = [] ∨ w.setKey = 0 ∧ FullTurns w 0 file
    else w.fcloseIn ≠ 0

theorem cfbFile_nil (cfb : Bytes → Bytes) (fuel : ℕ) : cfbFile cfb fuel [] = [] := by
  cases fuel with
  | zero => rfl
  | succ fuel => simp [cfbFile]

theorem cfbFile_length (w : AesFileCalls) {fuel : ℕ} {rest : Bytes} (h : rest.length < fuel) :
    (cfbFile w.cfb fuel rest).length = rest.length := by
  induction fuel generalizing rest with
  | zero => omega
  | succ fuel ih =>
    rw [cfbFile]
    by_cases hnil : rest = []
    · rw [if_pos hnil, hnil]
    · have hpos := List.length_pos_of_ne_nil hnil
      have hblock : (field aesBlockSize (rest.take aesBlockSize)).length = aesBlockSize := by
        simp [field]
      rw [if_neg hnil, List.length_append, List.length_take, w.cfb_length, hblock,
        ih (by rw [List.length_drop]; simp only [aesBlockSize]; omega), List.length_take,
        List.length_drop]
      simp only [aesBlockSize]
      omega

theorem fullTurns_nil (w : AesFileCalls) (i : ℕ) : FullTurns w i [] := by
  intro j hj
  simp at hj

/-- The first turn is full, and so are the others. -/
theorem fullTurns_iff (w : AesFileCalls) (i : ℕ) {rest : Bytes} (h : rest ≠ []) :
    FullTurns w i rest ↔
      (min aesBlockSize rest.length ≤ w.fread i ∧ min aesBlockSize rest.length ≤ w.fwrite i) ∧
        FullTurns w (i + 1) (rest.drop aesBlockSize) := by
  have hpos := List.length_pos_of_ne_nil h
  unfold FullTurns
  simp only [aesBlockSize, List.length_drop]
  constructor
  · intro hfull
    refine ⟨by simpa using hfull 0 (by omega), ?_⟩
    intro j hj
    have hnext := hfull (j + 1) (by omega)
    rw [show rest.length - 16 - 16 * j = rest.length - 16 * (j + 1) by omega,
      show i + 1 + j = i + (j + 1) by omega]
    exact hnext
  · rintro ⟨hfirst, hrest⟩ j hj
    cases j with
    | zero => simpa using hfirst
    | succ j =>
      have hnext := hrest j (by omega)
      rw [show rest.length - 16 - 16 * j = rest.length - 16 * (j + 1) by omega,
        show i + 1 + j = i + (j + 1) by omega] at hnext
      exact hnext

/-- A turn that reads or writes less than there is of its block is the last one. -/
theorem aesFileLoop_short (w : AesFileCalls) (fuel i : ℕ) {rest : Bytes} (h : rest ≠ [])
    (hturn : ¬ (min aesBlockSize rest.length ≤ w.fread i ∧
      min aesBlockSize rest.length ≤ w.fwrite i)) :
    (aesFileLoop w (fuel + 1) i rest).1.length < rest.length := by
  have hpos := List.length_pos_of_ne_nil h
  rw [aesFileLoop]
  dsimp only
  split_ifs with hread hwrite hlast
  · exact hpos
  · have htake := List.length_take_le (min (w.fwrite i) (min (w.fread i) (min aesBlockSize
      rest.length))) (w.cfb (field aesBlockSize (rest.take (min (w.fread i) (min aesBlockSize
      rest.length)))))
    simp only [aesBlockSize] at *
    omega
  · have htake := List.length_take_le (min (w.fread i) (min aesBlockSize rest.length))
      (w.cfb (field aesBlockSize (rest.take (min (w.fread i) (min aesBlockSize rest.length)))))
    simp only [aesBlockSize] at *
    omega
  · simp only [aesBlockSize] at *
    omega

/-- A full turn writes its block transformed. -/
theorem aesFileLoop_full (w : AesFileCalls) (fuel i : ℕ) {rest : Bytes} (h : rest ≠ [])
    (hread : min aesBlockSize rest.length ≤ w.fread i)
    (hwrite : min aesBlockSize rest.length ≤ w.fwrite i) :
    (aesFileLoop w (fuel + 1) i rest).1 =
      (w.cfb (field aesBlockSize (rest.take aesBlockSize))).take (rest.take aesBlockSize).length ++
        if rest.length < aesBlockSize then []
        else (aesFileLoop w fuel (i + 1) (rest.drop aesBlockSize)).1 := by
  have hpos := List.length_pos_of_ne_nil h
  have hk : min (w.fread i) (min aesBlockSize rest.length) = min aesBlockSize rest.length := by
    omega
  have hl : min (w.fwrite i) (min aesBlockSize rest.length) = min aesBlockSize rest.length := by
    omega
  have hstart : ¬ min aesBlockSize rest.length < 1 := by
    simp only [aesBlockSize]
    omega
  have htake : rest.take (min aesBlockSize rest.length) = rest.take aesBlockSize := by
    rw [List.take_eq_take_iff]
    omega
  rw [aesFileLoop]
  dsimp only
  rw [hk, hl, if_neg hstart, if_neg (by simp), htake, List.length_take]
  by_cases hlast : rest.length < aesBlockSize
  · rw [if_pos (by omega), if_pos hlast, List.append_nil]
  · have hmin : min aesBlockSize rest.length = aesBlockSize := by omega
    rw [if_neg (by omega), if_neg hlast, hmin]

/-- With full turns the loop writes the whole file, and otherwise less of it. -/
theorem aesFileLoop_spec (w : AesFileCalls) {fuel i : ℕ} {rest : Bytes} (h : rest.length < fuel) :
    (FullTurns w i rest → (aesFileLoop w fuel i rest).1 = cfbFile w.cfb fuel rest) ∧
      (¬ FullTurns w i rest → (aesFileLoop w fuel i rest).1.length < rest.length) := by
  induction fuel generalizing i rest with
  | zero => omega
  | succ fuel ih =>
    by_cases hnil : rest = []
    · have hfull : FullTurns w i rest := hnil ▸ fullTurns_nil w i
      refine ⟨?_, fun hn => (hn hfull).elim⟩
      intro _
      simp [aesFileLoop, cfbFile, hnil]
    · have hpos := List.length_pos_of_ne_nil hnil
      have hdrop : (rest.drop aesBlockSize).length < fuel := by
        simp only [List.length_drop, aesBlockSize]
        omega
      obtain ⟨hall, hless⟩ := ih (i := i + 1) hdrop
      rw [fullTurns_iff w i hnil]
      by_cases hturn : min aesBlockSize rest.length ≤ w.fread i ∧
          min aesBlockSize rest.length ≤ w.fwrite i
      · rw [aesFileLoop_full w fuel i hnil hturn.1 hturn.2, cfbFile, if_neg hnil]
        by_cases hlast : rest.length < aesBlockSize
        · have hend : rest.drop aesBlockSize = [] := List.drop_eq_nil_of_le (by omega)
          have hfull : FullTurns w (i + 1) (rest.drop aesBlockSize) := hend ▸ fullTurns_nil w _
          refine ⟨?_, fun hn => (hn ⟨hturn, hfull⟩).elim⟩
          intro _
          rw [if_pos hlast, hend, cfbFile_nil]
        · rw [if_neg hlast]
          refine ⟨fun hfull => by rw [hall hfull.2], ?_⟩
          intro hn
          have hshort := hless fun hfull => hn ⟨hturn, hfull⟩
          have htake := List.length_take_le (rest.take aesBlockSize).length
            (w.cfb (field aesBlockSize (rest.take aesBlockSize)))
          rw [List.length_append]
          simp only [List.length_drop, List.length_take, aesBlockSize] at *
          omega
      · refine ⟨fun hfull => (hturn hfull.1).elim, ?_⟩
        intro _
        exact aesFileLoop_short w fuel i hnil hturn

theorem cfbFile_eq_nil_iff (w : AesFileCalls) {fuel : ℕ} {rest : Bytes} (h : rest.length < fuel) :
    cfbFile w.cfb fuel rest = [] ↔ rest = [] := by
  rw [← List.length_eq_zero_iff, cfbFile_length w h, List.length_eq_zero_iff]

theorem aesFileLoop_eq_iff (w : AesFileCalls) {fuel : ℕ} (i : ℕ) {rest : Bytes}
    (h : rest.length < fuel) :
    (aesFileLoop w fuel i rest).1 = cfbFile w.cfb fuel rest ↔ FullTurns w i rest := by
  obtain ⟨hfull, hshort⟩ := aesFileLoop_spec w (i := i) h
  constructor
  · intro heq
    by_contra hn
    have hlt := hshort hn
    rw [heq, cfbFile_length w h] at hlt
    exact lt_irrefl _ hlt
  · exact hfull

theorem aes_reported_iff (w : AesFileCalls) (inp out : Option Bytes) :
    AesReported w inp out ↔ AesGood w inp out := by
  unfold AesReported AesGood ntfAesFile
  cases inp with
  | none => simp
  | some inp =>
    cases out with
    | none => simp
    | some out =>
      cases hin : w.fopenIn with
      | none => simp
      | some file =>
        cases hout : w.fopenOut with
        | false => simp
        | true =>
          by_cases hkey : w.setKey = 0
          · simp [hkey, aesFileLoop_eq_iff w 0 (Nat.lt_succ_self file.length)]
            have hnil : file = [] → FullTurns w 0 file := fun h => h ▸ fullTurns_nil w 0
            tauto
          · simp [hkey, cfbFile_eq_nil_iff w (Nat.lt_succ_self file.length)]
            tauto

/-! ### file_2_pubrsa -/

/-- What the calls on the file of a public key return: the calls on the file itself,
`BIO_new_mem_buf` on a text, and `PEM_read_bio_RSA_PUBKEY` on that text. -/
structure KeyCalls where
  file : FileCalls
  bioNew : Bool
  readPubkey : Bytes → Option RsaPub

/-- What `file_2_pubrsa` returns, and the key at `*output`, which is null at first. -/
structure PubRsa where
  err : ℤ
  output : Option RsaPub

/-- `file_2_pubrsa`. A block that was freed after a short read is null, and gives no `bio`. -/
def file2Pubrsa (w : KeyCalls) (path : Option Bytes) : Option PubRsa :=
  match file2Bytes w.file path true with
  | none => none
  | some r =>
    if r.err ≠ 0 then some ⟨r.err, none⟩
    else
      match r.output with
      | none => some ⟨1, none⟩
      | some str => if w.bioNew then some ⟨0, w.readPubkey (text str)⟩ else some ⟨1, none⟩

/-- The calls give the key `k` for the file. -/
def KeyCalls.Loads (w : KeyCalls) (file : Bytes) (k : RsaPub) : Prop :=
  w.file.n file = w.file.sz ∧ w.file.fclose = 0 ∧ w.bioNew = true ∧
    w.readPubkey (text (file.take w.file.sz)) = some k

/-- `srv-public-key.pem`. -/
def srvPublicKey : Bytes := "srv-public-key.pem".toUTF8.toList

theorem file2Pubrsa_isSome_iff (w : KeyCalls) (path : Bytes) :
    (file2Pubrsa w (some path)).isSome ↔
      ∀ file, w.file.fopen = some file → w.file.n file ≤ w.file.room := by
  unfold file2Pubrsa file2Bytes
  cases hopen : w.file.fopen with
  | none => simp
  | some file =>
    by_cases hroom : w.file.n file ≤ w.file.room
    · have hfit : ¬ w.file.room < w.file.n file := by omega
      simp [hfit, hroom]
      split_ifs <;> simp <;> split_ifs <;> simp
    · have hover : w.file.room < w.file.n file := by omega
      simp [hover]

/-- The key comes from a file read up to the end that was told, and closed. -/
theorem file2Pubrsa_output {w : KeyCalls} {path : Bytes} {r : PubRsa}
    (h : file2Pubrsa w (some path) = some r) (k : RsaPub) :
    r.output = some k ↔ ∃ file, w.file.fopen = some file ∧ w.Loads file k := by
  unfold file2Pubrsa file2Bytes at h
  unfold KeyCalls.Loads
  cases hopen : w.file.fopen with
  | none =>
    simp [hopen] at h
    simp [← h]
  | some file =>
    by_cases hover : w.file.room < w.file.n file
    · simp [hopen, hover] at h
    · by_cases hclose : w.file.fclose = 0
      · by_cases hread : w.file.n file = w.file.sz
        · rw [hread] at hover
          by_cases hbio : w.bioNew = true
          · simp [hopen, hover, hread, hclose, hbio] at h
            simp [← h, hread, hclose, hbio]
          · simp [hopen, hover, hread, hclose, hbio] at h
            simp [← h, hbio]
        · simp [hopen, hover, hread, hclose] at h
          simp [← h, hread]
      · by_cases hread : w.file.n file = w.file.sz
        · rw [hread] at hover
          simp [hopen, hover, hread, hclose] at h
          simp [← h, hclose]
        · simp [hopen, hover, hread, hclose] at h
          simp [← h, hclose]

/-! ### send_msg_track, cmd_2_srv -/

/-- What the calls of `gcm_encrypt` return: whether there is a context, whether each call on it
succeeds, the sum of the lengths that the last two leave, the buffer of the cipher text, and
the tag. -/
structure EvpCalls where
  ctxNew : Bool
  succeed : Bool
  len : ℤ
  buffer : Bytes
  tag : Bytes

/-- `msg_aes_enc` over these calls into a buffer of `lim` bytes, for a message of `lenin` bytes:
the datagram, or `none` inside for an error. A call that fails is printed and passed over, but
for the first, whose null pointer the next one reads. -/
def msgAesEncCalls (w : EvpCalls) (iv : Option Bytes) (lenin lim : ℕ) : Option (Option Bytes) :=
  match iv with
  | none => some none
  | some _ =>
    if lim < lenin + 1 + aesIvBytes then some none
    else if w.ctxNew then
      if w.len < 0 then some none
      else if lim < w.len.toNat + aesIvBytes + 1 then none
      else
        let buffer := memcpy w.buffer w.len.toNat w.tag
        let buffer := memcpy buffer (w.len.toNat + aesIvBytes) [encryptAes]
        some (some (buffer.take (w.len.toNat + aesIvBytes + 1)))
    else none

/-- The value of `err`, and the datagram that is sent. -/
structure Sending where
  err : ℤ
  sent : Option Bytes

/-- The part that both senders have: `n` bytes of `buf` encrypted, and the trailer. -/
def rsaDatagram (pubkey : Option RsaPub) (buf : Bytes) (n : ℕ) : Option Sending :=
  match rsaEncRet pubkey (buf.take n) true true with
  | none => none
  | some r =>
    let rsaLen := r.outlen.getD 0
    if r.err ≠ 0 then some ⟨r.err, none⟩
    else if maxMsg ≤ rsaLen then some ⟨0, none⟩
    else
      let buf := memcpy buf 0 (r.out.getD [])
      let buf := memcpy buf rsaLen [encryptSrvPub]
      some ⟨0, some (buf.take (rsaLen + 1))⟩

/-- `buf` of `send_msg_track`. -/
def trackMsg (iid : Bytes) (t : Option Timespec) : Bytes :=
  let buf := putTimeToMsg (zeros (maxMsg + 1)) t
  let buf := memcpy buf 0 [msgTra]
  memcpy buf offDevId (iid.take lenDevid)

/-- `send_msg_track`. `inet_addr` reads the address before it is checked; the number that is
returned, of the bytes sent, is left out. -/
def sendMsgTrack (key : KeyCalls) (evp : EvpCalls) (iid ipaddr : Option Bytes)
    (t : Option Timespec) (key256 iv : Option Bytes) : Option Sending :=
  match ipaddr, t, iid with
  | none, _, _ => none
  | some _, some t, some iid =>
    if iid.length < lenDevid then none
    else
      match key256 with
      | none =>
        match file2Pubrsa key (some srvPublicKey) with
        | none => none
        | some r =>
          match r.output with
          | none => some ⟨1, none⟩
          | some pubkey => rsaDatagram (some pubkey) (trackMsg iid (some t)) sizeofMsgCommon
      | some _ =>
        match msgAesEncCalls evp iv sizeofMsgCommon (maxMsg + 1) with
        | none => none
        | some none => some ⟨1, none⟩
        | some (some bufout) => some ⟨0, some bufout⟩
  | _, _, _ => some ⟨0, none⟩

/-- `buffer` of `cmd_2_srv`. -/
def cmdMsg (cmd r : UInt8) (data : Option Bytes) (idd : Bytes) (t : Timespec) : Bytes :=
  let buffer := memcpy (zeros (maxMsg + 1)) 0 [cmd, r]
  let buffer := memcpy buffer offDevId (idd.take (min lenDevid (strlen idd + 1)))
  let buffer :=
    match data with
    | none => buffer
    | some data =>
      setLen (memcpy buffer sizeofMsgCommon data) (uint16ToArr (UInt16.ofNat data.length) lenU16int)
  putTimeToMsg buffer (some t)

/-- `n`, a `uint16_t`. -/
def cmdLen (data : Option Bytes) : ℕ := (sizeofMsgCommon + (data.getD []).length) % 2 ^ 16

/-- `cmd_2_srv` with the results of `socket` and `close`. `DUM_MSG`, which prints, is left out. -/
def cmd2Srv (key : KeyCalls) (sockfd close : ℤ) (t : Timespec) (cmd r : UInt8)
    (data idd ip : Option Bytes) : Option Sending :=
  if sockfd < 0 then some ⟨1, none⟩
  else
    match idd, ip with
    | some idd, some _ =>
      if maxMsg + 1 < sizeofMsgCommon + (data.getD []).length then none
      else
        match file2Pubrsa key (some srvPublicKey) with
        | none => none
        | some pub =>
          match rsaDatagram pub.output (cmdMsg cmd r data idd t) (cmdLen data) with
          | none => none
          | some s => some ⟨if 0 < sockfd then close else s.err, s.sent⟩
    | _, _ => none

/-- The whole file is read and gives the key. -/
def KeyRead (w : KeyCalls) (k : RsaPub) : Prop :=
  ∃ file, w.file.fopen = some file ∧ w.file.Whole file ∧ w.Loads file k

/-- A key that is loaded encrypts the message, and comes from the whole file or makes blocks that
are too big. -/
def KeyGood (w : KeyCalls) (msg : Bytes) : Prop :=
  ∀ file, w.file.fopen = some file → w.file.n file ≤ w.file.room ∧
    ∀ k, w.Loads file k → Encrypts k msg ∧ (w.file.Whole file ∨ maxMsg ≤ k.size)

/-- A datagram is sent only when the key was read and the message encrypted. -/
def SentEncrypted (w : KeyCalls) (msg : Bytes) (s : Sending) : Prop :=
  s.sent.isSome → ∃ k, KeyRead w k ∧ Encrypts k msg

theorem rsaDatagram_none (buf : Bytes) (n : ℕ) : rsaDatagram none buf n = some ⟨1, none⟩ := rfl

theorem rsaDatagram_sent {k : RsaPub} {buf : Bytes} {n : ℕ} (h : buf.take n ≠ []) :
    ∃ s, rsaDatagram (some k) buf n = some s ∧
      (s.sent.isSome ↔ (Encrypts k (buf.take n) → k.size < maxMsg)) := by
  have hfits := rsaEncFits_of_pos k (List.length_pos_of_ne_nil h)
  have henc := rsaEnc_isSome_iff k (buf.take n)
  unfold rsaDatagram rsaEncRet
  cases hbuf : rsaEnc k (buf.take n) with
  | none =>
    rw [hbuf] at henc
    simp at henc
    simp [hfits, hbuf, henc]
  | some out =>
    have hlen := (rsaEnc_length hbuf).1
    rw [hbuf] at henc
    simp at henc
    by_cases hbig : maxMsg ≤ k.size
    · simp only [maxMsg] at hbig
      simp [hfits, hbuf, henc, hlen, hbig]
    · simp only [maxMsg] at hbig
      simp [hfits, hbuf, henc, hlen, hbig]
      omega

/-- A message that is not encrypted goes out as the trailer byte alone. -/
theorem rsaDatagram_failed {k : RsaPub} {buf : Bytes} {n : ℕ} (h : buf.take n ≠ [])
    (hfail : ¬ Encrypts k (buf.take n)) :
    rsaDatagram (some k) buf n = some ⟨0, some [encryptSrvPub]⟩ := by
  have hfits := rsaEncFits_of_pos k (List.length_pos_of_ne_nil h)
  have hnone : rsaEnc k (buf.take n) = none := by
    rw [← Option.not_isSome_iff_eq_none, rsaEnc_isSome_iff]
    exact hfail
  have hret : rsaEncRet (some k) (buf.take n) true true = some ⟨0, none, none⟩ := by
    simp [rsaEncRet, hfits, hnone]
  simp [rsaDatagram, hret, memcpy_start]

section Loaded

variable {w : KeyCalls} {file : Bytes} {k : RsaPub}

/-- With the one key that is loaded from the file. -/
theorem keyGood_loaded_iff (hopen : w.file.fopen = some file) (hk : w.Loads file k)
    (hone : ∀ k', w.Loads file k' → k' = k) (hroom : w.file.n file ≤ w.file.room) (msg : Bytes) :
    KeyGood w msg ↔ Encrypts k msg ∧ (w.file.Whole file ∨ maxMsg ≤ k.size) := by
  constructor
  · intro h
    exact (h file hopen).2 k hk
  · intro h file' hopen'
    rw [hopen] at hopen'
    cases hopen'
    refine ⟨hroom, fun k' hk' => ?_⟩
    rw [hone k' hk']
    exact h

theorem sentEncrypted_loaded_iff (hopen : w.file.fopen = some file) (hk : w.Loads file k)
    (hone : ∀ k', w.Loads file k' → k' = k) (msg : Bytes) (s : Sending) :
    SentEncrypted w msg s ↔ (s.sent.isSome → w.file.Whole file ∧ Encrypts k msg) := by
  constructor
  · intro h hsent
    obtain ⟨k', ⟨file', hopen', hwhole, hk'⟩, henc⟩ := h hsent
    rw [hopen] at hopen'
    cases hopen'
    rw [hone k' hk'] at henc
    exact ⟨hwhole, henc⟩
  · intro h hsent
    exact ⟨k, ⟨file, hopen, (h hsent).1, hk⟩, (h hsent).2⟩

end Loaded

/-- Over the calls that read the key, the datagram is reported exactly with a good key. -/
theorem keyGood_iff (w : KeyCalls) (path : Bytes) {buf : Bytes} {n : ℕ} (h : buf.take n ≠ []) :
    KeyGood w (buf.take n) ↔ ∃ s, ((file2Pubrsa w (some path)).bind fun pub =>
      rsaDatagram pub.output buf n) = some s ∧ SentEncrypted w (buf.take n) s := by
  have hsome := file2Pubrsa_isSome_iff w path
  cases hpub : file2Pubrsa w (some path) with
  | none =>
    rw [hpub] at hsome
    simp only [Option.bind_none, reduceCtorEq, false_and, exists_false, iff_false]
    intro hgood
    exact absurd (hsome.mpr fun file hopen => (hgood file hopen).1) (by simp)
  | some pub =>
    rw [hpub] at hsome
    have hroom := hsome.mp rfl
    have hloads := file2Pubrsa_output hpub
    rw [Option.bind_some]
    cases hkey : pub.output with
    | none =>
      refine iff_of_true ?_ ⟨⟨1, none⟩, rsaDatagram_none buf n, by simp [SentEncrypted]⟩
      intro file hopen
      refine ⟨hroom file hopen, ?_⟩
      intro k hk
      rw [(hloads k).mpr ⟨file, hopen, hk⟩] at hkey
      cases hkey
    | some k =>
      obtain ⟨file, hopen, hk⟩ := (hloads k).mp hkey
      have hone : ∀ k', w.Loads file k' → k' = k := by
        intro k' hk'
        have hkey' := (hloads k').mpr ⟨file, hopen, hk'⟩
        rw [hkey] at hkey'
        exact (Option.some.inj hkey').symm
      obtain ⟨s, hs, hsent⟩ := rsaDatagram_sent (k := k) h
      rw [hs, keyGood_loaded_iff hopen hk hone (hroom file hopen)]
      simp only [Option.some.injEq, exists_eq_left', sentEncrypted_loaded_iff hopen hk hone]
      rw [hsent, ← not_lt]
      by_cases henc : Encrypts k (buf.take n)
      · simp only [henc, true_imp_iff, true_and, and_true]
        exact or_comm.trans imp_iff_not_or.symm
      · simp [henc]

/-- `send_msg_track` sends only what was encrypted. -/
def TrackReported (key : KeyCalls) (evp : EvpCalls) (iid ipaddr : Option Bytes)
    (t : Option Timespec) (key256 iv : Option Bytes) : Prop :=
  ∃ s, sendMsgTrack key evp iid ipaddr t key256 iv = some s ∧
    (key256 = none → SentEncrypted key ((trackMsg (iid.getD []) t).take sizeofMsgCommon) s) ∧
    (key256.isSome → s.sent.isSome → evp.ctxNew = true ∧ evp.succeed = true)

/-- With a time, an id and no key, the public key is good for the message; with a key and an iv,
every call of `gcm_encrypt` succeeds or they leave a negative length. -/
def TrackGood (key : KeyCalls) (evp : EvpCalls) (iid ipaddr : Option Bytes)
    (t : Option Timespec) (key256 iv : Option Bytes) : Prop :=
  ipaddr.isSome ∧ ∀ id, t.isSome → iid = some id → lenDevid ≤ id.length ∧
    (key256 = none → KeyGood key ((trackMsg id t).take sizeofMsgCommon)) ∧
    (key256.isSome → iv.isSome → evp.ctxNew = true ∧
      (0 ≤ evp.len → evp.len + aesIvBytes ≤ maxMsg ∧ evp.succeed = true))

theorem trackMsg_ne_nil (iid : Bytes) (t : Option Timespec) :
    (trackMsg iid t).take sizeofMsgCommon ≠ [] := by
  have htime : (putTimeToMsg (zeros (maxMsg + 1)) t).length = maxMsg + 1 := by
    rw [putTimeToMsg_length (by simp), zeros_length]
  have htype : (memcpy (putTimeToMsg (zeros (maxMsg + 1)) t) 0 [msgTra]).length = maxMsg + 1 := by
    rw [memcpy_length (by rw [htime]; simp), htime]
  have hlen : (trackMsg iid t).length = maxMsg + 1 := by
    rw [trackMsg, memcpy_length (by rw [htype]; simp; omega), htype]
  apply List.ne_nil_of_length_pos
  rw [List.length_take, hlen]
  decide

theorem msgAesEncCalls_iff (w : EvpCalls) (iv : Option Bytes) :
    (∃ d, msgAesEncCalls w iv sizeofMsgCommon (maxMsg + 1) = some d ∧
        (d.isSome → w.ctxNew = true ∧ w.succeed = true)) ↔
      (iv.isSome → w.ctxNew = true ∧
        (0 ≤ w.len → w.len + aesIvBytes ≤ maxMsg ∧ w.succeed = true)) := by
  unfold msgAesEncCalls
  cases iv with
  | none => simp
  | some iv =>
    cases hctx : w.ctxNew with
    | false => simp
    | true =>
      by_cases hneg : w.len < 0
      · have hlen : ¬ 0 ≤ w.len := by omega
        simp [hneg, hlen]
      · have hpos : 0 ≤ w.len := by omega
        by_cases hroom : w.len + 16 ≤ 1200
        · have hfit : ¬ 1200 + 1 < w.len.toNat + 16 + 1 := by omega
          simp [hneg, hpos, hroom, hfit]
        · have hover : 1200 + 1 < w.len.toNat + 16 + 1 := by omega
          simp [hneg, hpos, hroom, hover]

/-- Without a key the message goes out under the public key. -/
theorem sendMsgTrack_rsa (key : KeyCalls) (evp : EvpCalls) {iid : Bytes} (ipaddr : Bytes)
    (t : Timespec) (iv : Option Bytes) (h : lenDevid ≤ iid.length) :
    sendMsgTrack key evp (some iid) (some ipaddr) (some t) none iv =
      (file2Pubrsa key (some srvPublicKey)).bind fun pub =>
        rsaDatagram pub.output (trackMsg iid (some t)) sizeofMsgCommon := by
  have hid : ¬ iid.length < lenDevid := by omega
  rw [sendMsgTrack, if_neg hid]
  cases file2Pubrsa key (some srvPublicKey) with
  | none => rfl
  | some pub =>
    obtain ⟨err, output⟩ := pub
    cases output with
    | none => rfl
    | some k => rfl

theorem sendMsgTrack_aes (key : KeyCalls) (evp : EvpCalls) {iid : Bytes} (ipaddr : Bytes)
    (t : Timespec) (key256 : Bytes) (iv : Option Bytes) (h : lenDevid ≤ iid.length) :
    sendMsgTrack key evp (some iid) (some ipaddr) (some t) (some key256) iv =
      (msgAesEncCalls evp iv sizeofMsgCommon (maxMsg + 1)).map fun d =>
        ⟨if d.isSome then 0 else 1, d⟩ := by
  have hid : ¬ iid.length < lenDevid := by omega
  rw [sendMsgTrack, if_neg hid]
  cases msgAesEncCalls evp iv sizeofMsgCommon (maxMsg + 1) with
  | none => rfl
  | some d =>
    cases d with
    | none => rfl
    | some bufout => rfl

theorem track_reported_iff (key : KeyCalls) (evp : EvpCalls) (iid ipaddr : Option Bytes)
    (t : Option Timespec) (key256 iv : Option Bytes) :
    TrackReported key evp iid ipaddr t key256 iv ↔ TrackGood key evp iid ipaddr t key256 iv := by
  unfold TrackReported TrackGood
  cases ipaddr with
  | none => simp [sendMsgTrack]
  | some ipaddr =>
    cases t with
    | none => simp [sendMsgTrack, SentEncrypted]
    | some t =>
      cases iid with
      | none => simp [sendMsgTrack, SentEncrypted]
      | some iid =>
        by_cases hid : lenDevid ≤ iid.length
        · cases key256 with
          | none =>
            rw [sendMsgTrack_rsa key evp ipaddr t iv hid]
            have hkey := keyGood_iff key srvPublicKey (trackMsg_ne_nil iid (some t))
            simp at hid
            simpa [hid] using hkey.symm
          | some k256 =>
            rw [sendMsgTrack_aes key evp ipaddr t k256 iv hid]
            have haes := msgAesEncCalls_iff evp iv
            simp at hid
            simpa [hid] using haes
        · have hshort : iid.length < lenDevid := by omega
          simp [sendMsgTrack, hshort, hid]

/-- `cmd_2_srv` sends only what was encrypted. -/
def CmdReported (key : KeyCalls) (sockfd close : ℤ) (t : Timespec) (cmd r : UInt8)
    (data idd ip : Option Bytes) : Prop :=
  ∃ s, cmd2Srv key sockfd close t cmd r data idd ip = some s ∧
    SentEncrypted key ((cmdMsg cmd r data (idd.getD []) t).take (cmdLen data)) s

/-- There is no socket; or the id, the address and room for the data are there, and the public
key is good for the message. -/
def CmdGood (key : KeyCalls) (sockfd : ℤ) (t : Timespec) (cmd r : UInt8)
    (data idd ip : Option Bytes) : Prop :=
  sockfd < 0 ∨ idd.isSome ∧ ip.isSome ∧ sizeofMsgCommon + (data.getD []).length ≤ maxMsg + 1 ∧
    KeyGood key ((cmdMsg cmd r data (idd.getD []) t).take (cmdLen data))

theorem cmdMsg_ne_nil (cmd r : UInt8) {data : Option Bytes} (idd : Bytes) (t : Timespec)
    (h : sizeofMsgCommon + (data.getD []).length ≤ maxMsg + 1) :
    (cmdMsg cmd r data idd t).take (cmdLen data) ≠ [] := by
  have hdev : (memcpy (memcpy (zeros (maxMsg + 1)) 0 [cmd, r]) offDevId
      (idd.take (min lenDevid (strlen idd + 1)))).length = maxMsg + 1 := by
    have htype : (memcpy (zeros (maxMsg + 1)) 0 [cmd, r]).length = maxMsg + 1 := by
      rw [memcpy_length (by simp), zeros_length]
    rw [memcpy_length (by rw [htype]; simp; omega), htype]
  have hpos : 0 < cmdLen data := by
    simp only [cmdLen, sizeofMsgCommon, maxMsg] at *
    omega
  apply List.ne_nil_of_length_pos
  rw [List.length_take]
  apply lt_min hpos
  unfold cmdMsg
  cases data with
  | none =>
    rw [putTimeToMsg_length (by rw [hdev]; simp), hdev]
    decide
  | some data =>
    have hdata : (memcpy (memcpy (memcpy (zeros (maxMsg + 1)) 0 [cmd, r]) offDevId
        (idd.take (min lenDevid (strlen idd + 1)))) sizeofMsgCommon data).length = maxMsg + 1 := by
      rw [memcpy_length (by rw [hdev]; exact h), hdev]
    have hset : (setLen (memcpy (memcpy (memcpy (zeros (maxMsg + 1)) 0 [cmd, r]) offDevId
        (idd.take (min lenDevid (strlen idd + 1)))) sizeofMsgCommon data)
        (uint16ToArr (UInt16.ofNat data.length) lenU16int)).length = maxMsg + 1 := by
      rw [setLen, memcpy_length (by rw [hdata, uint16ToArr_length]; decide), hdata]
    dsimp only
    rw [putTimeToMsg_length (by rw [hset]; simp), hset]
    decide

theorem cmd2Srv_eq (key : KeyCalls) {sockfd : ℤ} (close : ℤ) (t : Timespec) (cmd r : UInt8)
    {data : Option Bytes} (idd ip : Bytes) (hsock : ¬ sockfd < 0)
    (h : sizeofMsgCommon + (data.getD []).length ≤ maxMsg + 1) :
    cmd2Srv key sockfd close t cmd r data (some idd) (some ip) =
      ((file2Pubrsa key (some srvPublicKey)).bind fun pub =>
        rsaDatagram pub.output (cmdMsg cmd r data idd t) (cmdLen data)).map fun s =>
          ⟨if 0 < sockfd then close else s.err, s.sent⟩ := by
  have hfit : ¬ maxMsg + 1 < sizeofMsgCommon + (data.getD []).length := by omega
  rw [cmd2Srv, if_neg hsock, if_neg hfit]
  cases file2Pubrsa key (some srvPublicKey) with
  | none => rfl
  | some pub =>
    rw [Option.bind_some]
    dsimp only
    cases rsaDatagram pub.output (cmdMsg cmd r data idd t) (cmdLen data) with
    | none => rfl
    | some s => rfl

theorem exists_map_some {α β : Type} (x : Option α) (f : α → β) (P : β → Prop) :
    (∃ b, x.map f = some b ∧ P b) ↔ ∃ a, x = some a ∧ P (f a) := by
  cases x <;> simp

theorem cmd_reported_iff (key : KeyCalls) (sockfd close : ℤ) (t : Timespec) (cmd r : UInt8)
    (data idd ip : Option Bytes) :
    CmdReported key sockfd close t cmd r data idd ip ↔
      CmdGood key sockfd t cmd r data idd ip := by
  unfold CmdReported CmdGood
  by_cases hsock : sockfd < 0
  · simp [cmd2Srv, hsock, SentEncrypted]
  · cases idd with
    | none => simp [cmd2Srv, hsock]
    | some idd =>
      cases ip with
      | none => simp [cmd2Srv, hsock]
      | some ip =>
        by_cases hroom : sizeofMsgCommon + (data.getD []).length ≤ maxMsg + 1
        · rw [cmd2Srv_eq key close t cmd r idd ip hsock hroom]
          have hkey := keyGood_iff key srvPublicKey (cmdMsg_ne_nil cmd r idd t hroom)
          simp only [sizeofMsgCommon, maxMsg] at hroom
          simp only [exists_map_some]
          simpa [hsock, hroom, SentEncrypted] using hkey.symm
        · have hover : maxMsg + 1 < sizeofMsgCommon + (data.getD []).length := by omega
          simp only [sizeofMsgCommon, maxMsg] at hroom hover
          simp [cmd2Srv, hsock, hroom, hover]

/-- The helpers and the two senders report every failure. -/
def FailuresReported (f : FileCalls) (path : Option Bytes) (output : Bool)
    (pubkey : Option RsaPub) (inp : Bytes) (out outlen : Bool)
    (a : AesFileCalls) (ain aout : Option Bytes)
    (key : KeyCalls) (evp : EvpCalls) (iid ipaddr : Option Bytes) (t : Option Timespec)
    (key256 iv : Option Bytes)
    (sockfd close : ℤ) (now : Timespec) (cmd r : UInt8) (data idd ip : Option Bytes) : Prop :=
  ReadReported f path output ∧ EncReported pubkey inp out outlen ∧ AesReported a ain aout ∧
    TrackReported key evp iid ipaddr t key256 iv ∧
      CmdReported key sockfd close now cmd r data idd ip

/-- Failures are reported exactly when none of them meets a clean-up that succeeds. -/
theorem failures_reported_iff (f : FileCalls) (path : Option Bytes) (output : Bool)
    (pubkey : Option RsaPub) (inp : Bytes) (out outlen : Bool)
    (a : AesFileCalls) (ain aout : Option Bytes)
    (key : KeyCalls) (evp : EvpCalls) (iid ipaddr : Option Bytes) (t : Option Timespec)
    (key256 iv : Option Bytes)
    (sockfd close : ℤ) (now : Timespec) (cmd r : UInt8) (data idd ip : Option Bytes) :
    FailuresReported f path output pubkey inp out outlen a ain aout key evp iid ipaddr t key256 iv
        sockfd close now cmd r data idd ip ↔
      ReadGood f path output ∧ EncGood pubkey inp out outlen ∧ AesGood a ain aout ∧
        TrackGood key evp iid ipaddr t key256 iv ∧ CmdGood key sockfd now cmd r data idd ip := by
  unfold FailuresReported
  rw [read_reported_iff, enc_reported_iff, aes_reported_iff, track_reported_iff,
    cmd_reported_iff]

/-- A file of two bytes of which one is read, and closed without error. -/
def shortRead : FileCalls where
  fopen := some [65, 66]
  ftell := 2
  fread := 1
  fclose := 0

/-- A key with which every encryption fails, from a file that is read well. -/
def failingKey : KeyCalls where
  file := { fopen := some [65, 66], ftell := 2, fread := 2, fclose := 0 }
  bioNew := true
  readPubkey := fun _ => some ⟨128, fun _ => none, by simp⟩

/-- `file_2_bytes` returns 0 after a short read, and `cmd_2_srv` sends the trailer byte alone for
a message that was not encrypted. -/
theorem failures_unreported :
    file2Bytes shortRead (some [107]) true = some ⟨0, none⟩ ∧
      ¬ ReadReported shortRead (some [107]) true ∧
      cmd2Srv failingKey 3 0 ⟨0, 0⟩ msgGetAes gCliSrv none (some [100, 49, 0]) (some [49]) =
        some ⟨0, some [encryptSrvPub]⟩ ∧
      ¬ CmdReported failingKey 3 0 ⟨0, 0⟩ msgGetAes gCliSrv none (some [100, 49, 0])
        (some [49]) := by
  have hread : file2Bytes shortRead (some [107]) true = some ⟨0, none⟩ := rfl
  have hload : file2Pubrsa failingKey (some srvPublicKey) =
      some ⟨0, some ⟨128, fun _ => none, by simp⟩⟩ := rfl
  have hsend : cmd2Srv failingKey 3 0 ⟨0, 0⟩ msgGetAes gCliSrv none (some [100, 49, 0])
      (some [49]) = some ⟨0, some [encryptSrvPub]⟩ := by
    rw [cmd2Srv_eq failingKey 0 ⟨0, 0⟩ msgGetAes gCliSrv _ _ (by decide) (by decide), hload,
      Option.bind_some, rsaDatagram_failed (cmdMsg_ne_nil _ _ _ _ (by decide))]
    · rfl
    · rintro ⟨-, henc⟩
      cases henc
  refine ⟨hread, ?_, hsend, ?_⟩
  · rintro ⟨r, hr, hreported⟩
    rw [hread] at hr
    obtain ⟨file, -, hfile⟩ := hreported (by rw [← Option.some.inj hr])
    rw [← Option.some.inj hr] at hfile
    cases hfile
  · rintro ⟨s, hs, hreported⟩
    rw [hsend] at hs
    obtain ⟨k, ⟨file, -, -, hloads⟩, henc⟩ := hreported (by rw [← Option.some.inj hs]; rfl)
    have hk := hloads.2.2.2
    rw [← Option.some.inj hk] at henc
    cases henc.2

end MemoryLeak.Notify
