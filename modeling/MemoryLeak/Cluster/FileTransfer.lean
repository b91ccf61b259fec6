import MemoryLeak.CText
import MemoryLeak.Cbc
import MemoryLeak.Loops

/-!
# A file sent by the warehouse server

`lcs_whs_send_file` cuts a file into frames, each encrypted on its own, and
`lcs_odbc_recv_file` takes what each `recv` returns for a frame. The cipher is the one
under the three keys, once `DES_set_key_checked` has accepted them; `keys` says whether it
has. Every `send` sends its whole frame.
-/
namespace MemoryLeak.Cluster
open MemoryLeak.CBytes MemoryLeak.CText MemoryLeak.Cbc MemoryLeak.Loops

/-- `DES_ede3` under the session's keys. -/
abbrev Des := BlockCipher 8

/-- The chaining block: zeros, to which `DES_set_odd_parity` gives odd parity. -/
def cblock : Bytes := List.replicate 8 1

/-- `LCS_RSA_3DES_OFF`. -/
def modeOff : UInt8 := 0xFF

/-- `LCS_RSA_3DES_OVER`. -/
def modeOver : UInt8 := 0xFE

/-- `LCS_RSA_3DES_DATA`. -/
def modeData : UInt8 := 0x02

/-- `LCS_RSA_3DES_CHECKSUM`. -/
def modeChecksum : UInt8 := 0x04

/-! ### The server -/

/-- `while(k < m) { k <<= 1; }`, of at most as many turns as an `unsigned int` has bits. -/
def shiftUp : ℕ → ℕ → ℕ → ℕ
  | 0, k, _ => k
  | n + 1, k, m => if k < m then shiftUp n (2 * k) m else k

/-- The bytes that are encrypted of a segment of `m`: a power of two, a block at least. -/
def frameSize (m : ℕ) : ℕ := if shiftUp 32 1 m < 8 then 8 else shiftUp 32 1 m

/-- An `LCSUSHORT` in memory. -/
def ushortBytes (n : ℕ) : Bytes := [UInt8.ofNat n, UInt8.ofNat (n / 256)]

/-- Mode, length and data at the start of a cleared buffer, as far as it is encrypted. -/
def segmentOf (mode : UInt8) (data : Bytes) : Bytes :=
  mode :: ushortBytes data.length ++ data ++
    zeros (frameSize (data.length + 3) - (data.length + 3))

/-- The encryption of a segment from the chaining block `iv`. -/
def frameFrom (c : Des) (iv : Bytes) (mode : UInt8) (data : Bytes) : Bytes :=
  encrypt c (frameSize (data.length + 3) / 8) iv (segmentOf mode data)

/-- `lcs_3des_send`: chunks of 512 bytes, their length in 16 bits, each chained to the one
before. -/
def lcs3desSendFrom (c : Des) (mode : UInt8) : ℕ → Bytes → Bytes → List Bytes
  | 0, _, _ => []
  | fuel + 1, iv, data =>
    if data = [] then []
    else
      let n := min (data.length % 65536) 512
      let cipher := frameFrom c iv mode (data.take n)
      cipher :: lcs3desSendFrom c mode fuel (cipher.drop (cipher.length - 8)) (data.drop 512)

def lcs3desSend (c : Des) (mode : UInt8) (data : Bytes) : List Bytes :=
  lcs3desSendFrom c mode (data.length + 1) cblock data

def dataFrame (c : Des) (chunk : Bytes) : Bytes := frameFrom c cblock modeData chunk

/-- `End session.` and its NUL, 32 bytes with what is before and behind it. -/
def offSegment : Bytes :=
  modeOff :: ushortBytes 13 ++ [69, 110, 100, 32, 115, 101, 115, 115, 105, 111, 110, 46] ++ zeros 17

def offFrame (c : Des) : Bytes := encrypt c 4 cblock offSegment

theorem drop_chunk_lt {file : Bytes} (h : file ≠ []) : (file.drop 509).length < file.length := by
  have := List.length_pos_of_ne_nil h
  rw [List.length_drop]
  omega

/-- `while((len = fread(..)))`; the loop over the chunk turns once, as 509 bytes fit. -/
def sendChunks (c : Des) (file : Bytes) : List Bytes :=
  if _h : file = [] then []
  else
    dataFrame c (file.take 509) ::
      if (file.take 509).length < 509 then [offFrame c] else sendChunks c (file.drop 509)
termination_by file.length
decreasing_by exact drop_chunk_lt _h

/-- `ftell` at the end of a file, as an `unsigned long`: -1 for a length that is no `long`. -/
def ftell (file : Bytes) : ℕ :=
  if file.length < 9223372036854775808 then file.length else 18446744073709551615

def checksumText (file : Bytes) : Bytes := natDec (ftell file) ++ [0]

/-- What is sent; `none` is a file that cannot be opened. -/
def lcsWhsSendFile (c : Des) (keys : Bool) : Option Bytes → List Bytes
  | none => []
  | some file =>
    if keys then lcs3desSend c modeChecksum (checksumText file) ++ sendChunks c file else []

/-! ### The client -/

structure RecvState where
  file : Bytes
  total : ℕ
  checksum : ℕ

/-- The 1024 bytes decrypted of what was received, in a buffer of 1029. -/
def decodeSegment (c : Des) (received : Bytes) : Bytes :=
  decrypt c 128 cblock (received ++ zeros (1029 - received.length)) ++ zeros 5

/-- The length field of a segment. -/
def segmentLength (segment : Bytes) : ℕ :=
  (byteAt segment 1).toNat + 256 * (byteAt segment 2).toNat

/-- A turn of the loop, after a `recv` of at least a byte. `total` is an `unsigned int`; data
that ends behind the buffer has no defined outcome. -/
def recvTurn (c : Des) (s : RecvState) (received : Bytes) : Option (Turn RecvState) :=
  let segment := decodeSegment c received
  let cmod := byteAt segment 0
  if cmod = modeData then
    let length := segmentLength segment
    if length ≤ 1026 then
      some (.again { s with
        file := s.file ++ (segment.drop 3).take length
        total := (s.total + length) % 4294967296 })
    else none
  else if cmod = modeChecksum then
    some (.again { s with checksum := (scanLu (segment.drop 3)).getD s.checksum })
  else if cmod = modeOver then some (.leave s)
  else if cmod = modeOff then some (.leave s)
  else some (.again s)

/-- The loop over what `recv` returns; behind the last piece the connection is closed. -/
def recvLoop (c : Des) : List Bytes → RecvState → Option RecvState
  | [], s => some s
  | p :: ps, s =>
    match recvTurn c s p with
    | none => none
    | some (.again s') => recvLoop c ps s'
    | some (.leave s') => some s'

/-- The file written, if it could be opened, and whether `*err` was set. -/
def lcsOdbcRecvFile (c : Des) (opened keys : Bool) (received : List Bytes) :
    Option (Option Bytes × Bool) :=
  if opened then
    if keys then
      (recvLoop c received ⟨[], 0, 0⟩).map fun s => (some s.file, decide (s.checksum ≠ s.total))
    else some (some [], true)
  else some (none, false)

/-! ### Frames -/

theorem frameSize_spec {m : ℕ} (h : m ≤ 512) :
    m ≤ frameSize m ∧ 8 ≤ frameSize m ∧ frameSize m ≤ 512 ∧ frameSize m % 8 = 0 ∧
      (m ≤ 32 → frameSize m ≤ 32) := by
  have hall : ∀ m : Fin 513, m.val ≤ frameSize m.val ∧ 8 ≤ frameSize m.val ∧
      frameSize m.val ≤ 512 ∧ frameSize m.val % 8 = 0 ∧ (m.val ≤ 32 → frameSize m.val ≤ 32) := by
    decide +kernel
  exact hall ⟨m, by omega⟩

theorem cblock_length : cblock.length = 8 := List.length_replicate

section Frames

variable {c : Des} (mode : UInt8) {data : Bytes}

theorem segmentOf_length_of_le (hdata : data.length + 3 ≤ frameSize (data.length + 3)) :
    (segmentOf mode data).length = frameSize (data.length + 3) := by
  simp only [segmentOf, ushortBytes, List.length_append, List.length_cons, List.length_nil,
    zeros_length]
  omega

theorem segmentOf_length (hdata : data.length ≤ 509) :
    (segmentOf mode data).length = frameSize (data.length + 3) :=
  segmentOf_length_of_le mode (frameSize_spec (m := data.length + 3) (by omega)).1

theorem frameFrom_length (hdata : data.length ≤ 509) :
    (frameFrom c cblock mode data).length = frameSize (data.length + 3) := by
  obtain ⟨-, -, -, hmod, -⟩ := frameSize_spec (m := data.length + 3) (by omega)
  have hblocks : frameSize (data.length + 3) / 8 * 8 = frameSize (data.length + 3) := by omega
  rw [frameFrom, encrypt_length cblock_length (by rw [hblocks, segmentOf_length mode hdata]),
    hblocks]

/-- What is received of a frame up to the end of a block is decrypted, whatever follows. -/
theorem decode_frame (hdata : data.length ≤ 509) {s : ℕ} (hs : s % 8 = 0)
    (hle : s ≤ frameSize (data.length + 3)) (tail : Bytes) :
    (decodeSegment c ((frameFrom c cblock mode data).take s ++ tail)).take s =
      (segmentOf mode data).take s := by
  obtain ⟨-, -, hmax, hmod, -⟩ := frameSize_spec (m := data.length + 3) (by omega)
  have hj : s / 8 * 8 = s := by omega
  have hblocks : frameSize (data.length + 3) / 8 * 8 = frameSize (data.length + 3) := by omega
  have hdec := decrypt_encrypt (c := c) (j := s / 8) (n := frameSize (data.length + 3) / 8)
    (m := 128) (x := segmentOf mode data) (by omega) (by omega) cblock_length
    (by rw [hblocks, segmentOf_length mode hdata])
    (tail ++ zeros (1029 - ((frameFrom c cblock mode data).take s ++ tail).length))
  rw [hj, ← List.append_assoc] at hdec
  rw [decodeSegment, List.take_append_of_le_length, ← hdec]
  · rfl
  · rw [decrypt_length cblock_length]
    · omega
    · rw [List.length_append, zeros_length]
      omega

theorem byteAt_decode (hdata : data.length ≤ 509) {s i : ℕ} (hs : s % 8 = 0)
    (hle : s ≤ frameSize (data.length + 3)) (hi : i < s) (tail : Bytes) :
    byteAt (decodeSegment c ((frameFrom c cblock mode data).take s ++ tail)) i =
      byteAt (segmentOf mode data) i := by
  rw [← byteAt_take _ hi, decode_frame mode hdata hs hle, byteAt_take _ hi]

theorem decode_mode (hdata : data.length ≤ 509) {s : ℕ} (hs : s % 8 = 0) (hpos : 0 < s)
    (hle : s ≤ frameSize (data.length + 3)) (tail : Bytes) :
    byteAt (decodeSegment c ((frameFrom c cblock mode data).take s ++ tail)) 0 = mode := by
  rw [byteAt_decode mode hdata hs hle hpos]
  rfl

theorem decode_length (hdata : data.length ≤ 509) {s : ℕ} (hs : s % 8 = 0) (hpos : 0 < s)
    (hle : s ≤ frameSize (data.length + 3)) (tail : Bytes) :
    segmentLength (decodeSegment c ((frameFrom c cblock mode data).take s ++ tail)) =
      data.length := by
  rw [segmentLength, byteAt_decode mode hdata hs hle (by omega),
    byteAt_decode mode hdata hs hle (by omega)]
  have hone : byteAt (segmentOf mode data) 1 = UInt8.ofNat data.length := rfl
  have htwo : byteAt (segmentOf mode data) 2 = UInt8.ofNat (data.length / 256) := rfl
  rw [hone, htwo, UInt8.toNat_ofNat', UInt8.toNat_ofNat']
  omega

theorem decodeSegment_length (received : Bytes) : (decodeSegment c received).length = 1029 := by
  rw [decodeSegment, List.length_append, decrypt_length cblock_length, zeros_length]
  rw [List.length_append, zeros_length]
  omega

/-- All of a frame is received: the segment is there again, with bytes behind it. -/
theorem decode_whole (hdata : data.length ≤ 509) (tail : Bytes) :
    ∃ rest, decodeSegment c (frameFrom c cblock mode data ++ tail) =
      segmentOf mode data ++ rest := by
  obtain ⟨-, -, -, hmod, -⟩ := frameSize_spec (m := data.length + 3) (by omega)
  have hdec := decode_frame (c := c) mode hdata hmod le_rfl tail
  rw [← frameFrom_length (c := c) mode hdata, List.take_length,
    frameFrom_length mode hdata, ← segmentOf_length mode hdata, List.take_length] at hdec
  exact ⟨_, by rw [← hdec, List.take_append_drop]⟩

end Frames

/-! ### What a turn of the client does with a frame -/

section Turns

variable {c : Des} (st : RecvState)

/-- The start of a data frame is taken for all of it: as many bytes are written. -/
theorem recvTurn_data {chunk : Bytes} (hchunk : chunk.length ≤ 509) {s : ℕ} (hs : s % 8 = 0)
    (hpos : 0 < s) (hle : s ≤ frameSize (chunk.length + 3)) (tail : Bytes) :
    ∃ w, w.length = chunk.length ∧
      recvTurn c st ((dataFrame c chunk).take s ++ tail) = some (.again ⟨st.file ++ w,
        (st.total + chunk.length) % 4294967296, st.checksum⟩) := by
  have hlen := decodeSegment_length (c := c) ((dataFrame c chunk).take s ++ tail)
  have hmode := decode_mode (c := c) modeData hchunk hs hpos hle tail
  have hlength := decode_length (c := c) modeData hchunk hs hpos hle tail
  refine ⟨((decodeSegment c ((dataFrame c chunk).take s ++ tail)).drop 3).take chunk.length, ?_, ?_⟩
  · rw [List.length_take, List.length_drop, hlen]
    omega
  · unfold recvTurn
    dsimp only [dataFrame]
    rw [if_pos hmode, hlength, if_pos (by omega)]

theorem recvTurn_dataFrame {chunk : Bytes} (hchunk : chunk.length ≤ 509) :
    recvTurn c st (dataFrame c chunk) = some (.again ⟨st.file ++ chunk,
      (st.total + chunk.length) % 4294967296, st.checksum⟩) := by
  obtain ⟨rest, hwhole⟩ := decode_whole (c := c) modeData hchunk []
  rw [List.append_nil] at hwhole
  have hmode : byteAt (segmentOf modeData chunk ++ rest) 0 = modeData := rfl
  have hlength : segmentLength (segmentOf modeData chunk ++ rest) = chunk.length := by
    obtain ⟨-, hmin, -, hmod, -⟩ := frameSize_spec (m := chunk.length + 3) (by omega)
    have h := decode_length (c := c) modeData hchunk hmod (by omega) le_rfl []
    rwa [List.append_nil, ← frameFrom_length (c := c) modeData hchunk, List.take_length,
      hwhole] at h
  have hdata : ((segmentOf modeData chunk ++ rest).drop 3).take chunk.length = chunk := by
    show (chunk ++ zeros _ ++ rest).take chunk.length = chunk
    rw [List.append_assoc, List.take_left]
  unfold recvTurn
  dsimp only [dataFrame]
  rw [hwhole, if_pos hmode, hlength, if_pos (by omega), hdata]

/-- A piece that the client leaves its loop at. -/
def EndsSession (c : Des) (received : Bytes) : Prop :=
  byteAt (decodeSegment c received) 0 = modeOver ∨ byteAt (decodeSegment c received) 0 = modeOff

instance (c : Des) (received : Bytes) : Decidable (EndsSession c received) :=
  inferInstanceAs (Decidable (_ ∨ _))

/-- The bytes of data that a piece is taken to bring. -/
def sentLength (c : Des) (received : Bytes) : ℕ :=
  if byteAt (decodeSegment c received) 0 = modeData then segmentLength (decodeSegment c received)
  else 0

/-- The size of the file that a piece is taken to tell. -/
def sentChecksum (c : Des) (received : Bytes) : Option ℕ :=
  if byteAt (decodeSegment c received) 0 = modeChecksum then
    scanLu ((decodeSegment c received).drop 3)
  else none

/-- What a piece is to the client, in whatever state it comes. -/
theorem recvTurn_cases (c : Des) (received : Bytes) :
    (1026 < sentLength c received ∧ ¬ EndsSession c received ∧
      ∀ s, recvTurn c s received = none) ∨
    (∃ w, w.length = sentLength c received ∧ ¬ EndsSession c received ∧ ∀ s,
      recvTurn c s received = some (.again ⟨s.file ++ w,
        (s.total + sentLength c received) % 4294967296,
        (sentChecksum c received).getD s.checksum⟩)) ∨
    (sentLength c received = 0 ∧ ¬ EndsSession c received ∧ ∀ s,
      recvTurn c s received = some (.again ⟨s.file, s.total,
        (sentChecksum c received).getD s.checksum⟩)) ∨
    (EndsSession c received ∧ ∀ s, recvTurn c s received = some (.leave s)) := by
  have hsegment := decodeSegment_length (c := c) received
  unfold recvTurn EndsSession sentLength sentChecksum
  dsimp only
  generalize hmode : byteAt (decodeSegment c received) 0 = mode
  by_cases hdata : mode = modeData
  · subst hdata
    have hopen : ¬ (modeData = modeOver ∨ modeData = modeOff) := by decide
    simp only [if_true, if_neg (show modeData ≠ modeChecksum by decide)]
    rcases Nat.lt_or_ge 1026 (segmentLength (decodeSegment c received)) with hlong | hlen
    · exact Or.inl ⟨hlong, hopen, fun s => if_neg (Nat.not_le_of_lt hlong)⟩
    · refine Or.inr (Or.inl ⟨_, ?_, hopen, fun s => if_pos hlen⟩)
      rw [List.length_take, List.length_drop, hsegment]
      omega
  · simp only [if_neg hdata]
    by_cases hck : mode = modeChecksum
    · subst hck
      exact Or.inr (Or.inr (Or.inl ⟨trivial, by decide, fun s => if_pos rfl⟩))
    · simp only [if_neg hck]
      by_cases hends : mode = modeOver ∨ mode = modeOff
      · refine Or.inr (Or.inr (Or.inr ⟨hends, fun s => ?_⟩))
        rcases hends with hover | hoff
        · exact if_pos hover
        · rw [if_pos hoff, ite_self]
      · have hboth := not_or.mp hends
        refine Or.inr (Or.inr (Or.inl ⟨trivial, hends, fun s => ?_⟩))
        rw [if_neg hboth.1, if_neg hboth.2]
        rfl

theorem checksumText_length (file : Bytes) :
    2 ≤ (checksumText file).length ∧ (checksumText file).length ≤ 21 := by
  have hne := List.length_pos_of_ne_nil (natDec_spec (ftell file)).1
  have hle := natDec_length_le (n := ftell file) (m := 19) (by unfold ftell; split <;> omega)
  rw [checksumText, List.length_append, List.length_singleton]
  omega

theorem ftell_lt (file : Bytes) : ftell file < 18446744073709551616 := by
  unfold ftell
  split <;> omega

/-- A checksum frame is understood whatever comes with it. -/
theorem recvTurn_checksum (file tail : Bytes) :
    recvTurn c st (frameFrom c cblock modeChecksum (checksumText file) ++ tail) =
      some (.again ⟨st.file, st.total, ftell file⟩) := by
  have hlen := (checksumText_length file).2
  obtain ⟨rest, hwhole⟩ := decode_whole (c := c) modeChecksum
    (show (checksumText file).length ≤ 509 by omega) tail
  have hmode : byteAt (segmentOf modeChecksum (checksumText file) ++ rest) 0 = modeChecksum := rfl
  have hscan : scanLu ((segmentOf modeChecksum (checksumText file) ++ rest).drop 3) =
      some (ftell file) := by
    show scanLu (checksumText file ++ zeros _ ++ rest) = _
    rw [checksumText, List.append_assoc, List.append_assoc, List.singleton_append]
    exact scanLu_natDec (ftell_lt file) _
  unfold recvTurn
  dsimp only
  rw [hwhole, hmode, if_neg (by decide), if_pos rfl, hscan]
  rfl

theorem offFrame_length : (offFrame c).length = 32 := encrypt_length cblock_length le_rfl

theorem recvTurn_off : recvTurn c st (offFrame c) = some (.leave st) := by
  have hdec := decrypt_encrypt (c := c) (j := 4) (n := 4) (m := 128) (x := offSegment) le_rfl
    (by omega) cblock_length le_rfl (zeros (1029 - (offFrame c).length))
  rw [List.take_of_length_le (show (encrypt c 4 cblock offSegment).length ≤ 4 * 8 from
    offFrame_length.le)] at hdec
  have hmode : byteAt (decodeSegment c (offFrame c)) 0 = modeOff := by
    rw [decodeSegment, byteAt_append_left, ← byteAt_take (n := 4 * 8) _ (by omega)]
    · exact congrArg (fun s => byteAt s 0) hdec
    · rw [decrypt_length cblock_length]
      · omega
      · rw [List.length_append, zeros_length]
        omega
  unfold recvTurn
  dsimp only
  rw [hmode, if_neg (by decide), if_neg (by decide), if_neg (by decide), if_pos rfl]

end Turns

/-! ### Whole transfers -/

variable {c : Des}

theorem lcs3desSend_checksum (c : Des) (file : Bytes) :
    lcs3desSend c modeChecksum (checksumText file) =
      [frameFrom c cblock modeChecksum (checksumText file)] := by
  obtain ⟨hmin, hmax⟩ := checksumText_length file
  have hne : checksumText file ≠ [] := List.ne_nil_of_length_pos (by omega)
  have hlen : min ((checksumText file).length % 65536) 512 = (checksumText file).length := by omega
  have hdrop : (checksumText file).drop 512 = [] := List.drop_eq_nil_of_le (by omega)
  obtain ⟨m, hm⟩ : ∃ m, (checksumText file).length = m + 1 :=
    ⟨(checksumText file).length - 1, by omega⟩
  unfold lcs3desSend
  rw [lcs3desSendFrom, if_neg hne, hlen]
  dsimp only
  rw [List.take_length, hdrop, hm, lcs3desSendFrom, if_pos rfl]

/-- Some frames of the chunks of a file, and the connection is closed: as many chunks have
been written, and all of the file when the frames are all. -/
theorem recvLoop_chunks (file : Bytes) (k : ℕ) (st : RecvState) (hst : st.total < 4294967296) :
    recvLoop c ((sendChunks c file).take k) st = some ⟨st.file ++ file.take (509 * k),
      (st.total + (file.take (509 * k)).length) % 4294967296, st.checksum⟩ := by
  induction k generalizing file st with
  | zero =>
    rw [List.take_zero, recvLoop, Nat.mul_zero, List.take_zero, List.append_nil, List.length_nil,
      Nat.add_zero, Nat.mod_eq_of_lt hst]
  | succ k ih =>
    rw [sendChunks]
    by_cases hnil : file = []
    · rw [dif_pos hnil, hnil, List.take_nil, List.take_nil, List.append_nil, List.length_nil,
        Nat.add_zero, Nat.mod_eq_of_lt hst]
      rfl
    · have hchunk : (file.take 509).length ≤ 509 := by
        rw [List.length_take]
        omega
      rw [dif_neg hnil, List.take_succ_cons, recvLoop, recvTurn_dataFrame st hchunk]
      dsimp only
      by_cases hshort : (file.take 509).length < 509
      · -- the frame behind the last chunk ends the loop and changes nothing
        have hall : file.length ≤ 509 := by
          rw [List.length_take] at hshort
          omega
        have hend : ∀ st, recvLoop c ([offFrame c].take k) st = some st := by
          intro st
          cases k with
          | zero => rfl
          | succ k => rw [List.take_succ_cons, recvLoop, recvTurn_off st]
        rw [if_pos hshort, hend, List.take_of_length_le hall,
          List.take_of_length_le (show file.length ≤ 509 * (k + 1) by omega)]
      · have hsplit : file.take (509 * (k + 1)) =
            file.take 509 ++ (file.drop 509).take (509 * k) := by
          rw [← List.take_add]
          congr 1
          omega
        rw [if_neg hshort, ih (file.drop 509) _ (Nat.mod_lt _ (by decide)), hsplit,
          List.append_assoc, List.length_append]
        congr 2
        dsimp only
        omega

/-- The checksum frame and `k` frames behind it. -/
theorem recv_frames (c : Des) (file : Bytes) (k : ℕ) :
    lcsOdbcRecvFile c true true ((lcsWhsSendFile c true (some file)).take (k + 1)) =
      some (some (file.take (509 * k)),
        decide (ftell file ≠ (file.take (509 * k)).length % 4294967296)) := by
  have hchunks := recvLoop_chunks (c := c) file k ⟨[], 0, ftell file⟩
    (show 0 < 4294967296 by decide)
  have hck := recvTurn_checksum (c := c) ⟨[], 0, 0⟩ file []
  rw [List.append_nil] at hck
  rw [List.nil_append, Nat.zero_add] at hchunks
  rw [lcsWhsSendFile, if_pos rfl, lcs3desSend_checksum, List.singleton_append, List.take_succ_cons,
    lcsOdbcRecvFile, if_pos rfl, if_pos rfl, recvLoop, hck]
  dsimp only
  rw [hchunks]
  rfl

theorem recv_whole (c : Des) (file : Bytes) :
    lcsOdbcRecvFile c true true (lcsWhsSendFile c true (some file)) =
      some (some file, decide (ftell file ≠ file.length % 4294967296)) := by
  have hprefix := recv_frames c file (max (lcsWhsSendFile c true (some file)).length file.length)
  rwa [List.take_of_length_le (by omega), List.take_of_length_le (by omega)] at hprefix

theorem ftell_eq_mod_iff (file : Bytes) {n : ℕ} (hn : n ≤ file.length) :
    ftell file = n % 4294967296 ↔ n = file.length ∧ n < 4294967296 := by
  unfold ftell
  split
  · omega
  · omega

/-- One frame for each `recv`: the client writes the server's file and reports no error
exactly when it can open its file, the keys are accepted and the length is an
`unsigned int`. -/
theorem transfer_identity_iff (c : Des) (opened keys : Bool) (file : Bytes) :
    lcsOdbcRecvFile c opened keys (lcsWhsSendFile c keys (some file)) = some (some file, false) ↔
      opened = true ∧ keys = true ∧ file.length < 4294967296 := by
  cases opened with
  | false => simp [lcsOdbcRecvFile]
  | true =>
    cases keys with
    | false => simp [lcsOdbcRecvFile]
    | true =>
      rw [recv_whole]
      simp only [Option.some.injEq, Prod.mk.injEq, decide_eq_false_iff_not, not_not, true_and]
      rw [ftell_eq_mod_iff file le_rfl]
      exact ⟨fun h => h.2, fun h => ⟨rfl, h⟩⟩

/-- A cipher that turns every block around. -/
def reverseBlocks : Des where
  enc := List.reverse
  dec := List.reverse
  enc_length := fun _ h => List.length_reverse.trans h
  dec_length := fun _ h => List.length_reverse.trans h
  dec_enc := fun x _ => List.reverse_reverse x

/-- A file of 4 GiB arrives and is reported as an error. -/
theorem transfer_reports_large_file :
    lcsOdbcRecvFile reverseBlocks true true
        (lcsWhsSendFile reverseBlocks true (some (List.replicate 4294967296 0))) ≠
      some (some (List.replicate 4294967296 0), false) := by
  rw [recv_whole]
  intro h
  have herr := (Prod.mk.inj (Option.some.inj h)).2
  rw [decide_eq_false_iff_not, not_not, ftell_eq_mod_iff _ le_rfl, List.length_replicate] at herr
  omega

/-- Once a frame has arrived the client notices that others are missing; before that it
does not, unless nothing was to come. -/
theorem truncation_noticed_iff (c : Des) (opened keys : Bool) (file : Bytes) (k : ℕ) :
    (∃ r, lcsOdbcRecvFile c opened keys ((lcsWhsSendFile c keys (some file)).take k) = some r ∧
      (r.2 = false → r.1 = some file)) ↔
      opened = true ∧ (keys = false ∨ 0 < k ∨ file = []) := by
  cases opened with
  | false => simp [lcsOdbcRecvFile]
  | true =>
    cases keys with
    | false => simp [lcsOdbcRecvFile]
    | true =>
      cases k with
      | zero =>
        rw [List.take_zero, lcsOdbcRecvFile, if_pos rfl, if_pos rfl, recvLoop]
        constructor
        · rintro ⟨r, hr, hsame⟩
          cases hr
          exact ⟨rfl, Or.inr (Or.inr (Option.some.inj (hsame rfl)).symm)⟩
        · rintro ⟨-, hkeys | hk | hfile⟩
          · cases hkeys
          · exact absurd hk (lt_irrefl 0)
          · exact ⟨_, rfl, fun _ => congrArg some hfile.symm⟩
      | succ k =>
        rw [recv_frames]
        refine ⟨fun _ => ⟨rfl, Or.inr (Or.inl (Nat.succ_pos k))⟩, fun _ => ⟨_, rfl, fun h => ?_⟩⟩
        rw [decide_eq_false_iff_not, not_not,
          ftell_eq_mod_iff file (List.length_take_le' _ _)] at h
        have hall := List.take_prefix (509 * k) file
        exact congrArg some (hall.eq_of_length h.1)

/-- No frame arrives of a file of one byte: the client is content with an empty file. -/
theorem truncation_not_noticed :
    ¬ ∃ r, lcsOdbcRecvFile reverseBlocks true true
        ((lcsWhsSendFile reverseBlocks true (some [65])).take 0) = some r ∧
      (r.2 = false → r.1 = some [65]) := by
  rw [List.take_zero, lcsOdbcRecvFile, if_pos rfl, if_pos rfl, recvLoop]
  rintro ⟨r, hr, hsame⟩
  cases hr
  cases hsame rfl

/-! ### Other pieces than frames -/

/-- What successive `recv`s may return of a stream. -/
structure IsSegmentation (ps : List Bytes) (stream : Bytes) : Prop where
  flatten : ps.flatten = stream
  nonempty : ∀ p ∈ ps, p ≠ []
  short : ∀ p ∈ ps, p.length ≤ 512

/-- The client's result does not depend on how the stream is cut. -/
def SegmentationFree (c : Des) (opened keys : Bool) (file : Option Bytes) : Prop :=
  ∀ ps ps', IsSegmentation ps (lcsWhsSendFile c keys file).flatten →
    IsSegmentation ps' (lcsWhsSendFile c keys file).flatten →
      lcsOdbcRecvFile c opened keys ps = lcsOdbcRecvFile c opened keys ps'

theorem IsSegmentation.cons {p : Bytes} {ps : List Bytes} {stream : Bytes} (hp : p ≠ [])
    (hlen : p.length ≤ 512) (h : IsSegmentation ps stream) :
    IsSegmentation (p :: ps) (p ++ stream) := by
  refine ⟨by rw [List.flatten_cons, h.flatten], ?_, ?_⟩
  · exact List.forall_mem_cons.mpr ⟨hp, h.nonempty⟩
  · exact List.forall_mem_cons.mpr ⟨hlen, h.short⟩

theorem IsSegmentation.eq_nil {ps : List Bytes} (h : IsSegmentation ps []) : ps = [] := by
  cases ps with
  | nil => rfl
  | cons p ps =>
    have hflat := h.flatten
    rw [List.flatten_cons, List.append_eq_nil_iff] at hflat
    exact absurd hflat.1 (h.nonempty p List.mem_cons_self)

theorem dataFrame_length {chunk : Bytes} (h : chunk.length ≤ 509) :
    8 ≤ (dataFrame c chunk).length ∧ (dataFrame c chunk).length ≤ 512 ∧
      (dataFrame c chunk).length % 8 = 0 := by
  obtain ⟨-, hmin, hmax, hmod, -⟩ := frameSize_spec (m := chunk.length + 3) (by omega)
  rw [dataFrame, frameFrom_length modeData h]
  exact ⟨hmin, hmax, hmod⟩

theorem checksumFrame_length (file : Bytes) :
    8 ≤ (frameFrom c cblock modeChecksum (checksumText file)).length ∧
      (frameFrom c cblock modeChecksum (checksumText file)).length ≤ 32 ∧
      (frameFrom c cblock modeChecksum (checksumText file)).length % 8 = 0 := by
  have hlen := (checksumText_length file).2
  obtain ⟨-, hmin, -, hmod, hmax⟩ :=
    frameSize_spec (m := (checksumText file).length + 3) (by omega)
  rw [frameFrom_length modeChecksum (by omega)]
  exact ⟨hmin, hmax (by omega), hmod⟩

/-- One `recv` for each frame. -/
theorem sendChunks_segmentation (c : Des) (file : Bytes) :
    IsSegmentation (sendChunks c file) (sendChunks c file).flatten := by
  fun_induction sendChunks c file with
  | case1 =>
    exact ⟨rfl, fun p hp => absurd hp List.not_mem_nil, fun p hp => absurd hp List.not_mem_nil⟩
  | case2 file hne ih =>
    have hchunk : (file.take 509).length ≤ 509 := by
      rw [List.length_take]
      omega
    obtain ⟨hmin, hmax, -⟩ := dataFrame_length (c := c) hchunk
    rw [List.flatten_cons]
    refine .cons (List.ne_nil_of_length_pos (by omega)) hmax ?_
    by_cases hshort : (file.take 509).length < 509
    · rw [if_pos hshort]
      have hoff : (offFrame c).length = 32 := offFrame_length
      refine ⟨rfl, ?_, ?_⟩
      · rw [List.forall_mem_singleton]
        exact List.ne_nil_of_length_pos (by omega)
      · rw [List.forall_mem_singleton]
        omega
    · rw [if_neg hshort]
      exact ih

/-- What is written of some pieces does not depend on what was there before. -/
theorem recvLoop_file (ps : List Bytes) {s s' : RecvState} {w : Bytes} (h : s.file = w ++ s'.file) :
    (recvLoop c ps s).map RecvState.file = (recvLoop c ps s').map fun r => w ++ r.file := by
  induction ps generalizing s s' with
  | nil => exact congrArg some h
  | cons p ps ih =>
    rw [recvLoop, recvLoop]
    rcases recvTurn_cases c p with ⟨-, -, hturn⟩ | ⟨x, -, -, hturn⟩ | ⟨-, -, hturn⟩ | ⟨-, hturn⟩
    · rw [hturn, hturn]
      rfl
    · rw [hturn, hturn]
      exact ih (by rw [h, List.append_assoc])
    · rw [hturn, hturn]
      exact ih h
    · rw [hturn, hturn]
      exact congrArg some h

theorem recvLoop_of_recv_eq {ps ps' : List Bytes}
    (h : lcsOdbcRecvFile c true true ps = lcsOdbcRecvFile c true true ps') :
    (recvLoop c ps ⟨[], 0, 0⟩).map RecvState.file =
      (recvLoop c ps' ⟨[], 0, 0⟩).map RecvState.file := by
  rw [lcsOdbcRecvFile, lcsOdbcRecvFile, if_pos rfl, if_pos rfl, if_pos rfl, if_pos rfl] at h
  cases hr : recvLoop c ps ⟨[], 0, 0⟩ with
  | none =>
    rw [hr] at h
    rw [Option.map_eq_none_iff.mp h.symm]
  | some r =>
    rw [hr] at h
    obtain ⟨r', hr', heq⟩ := Option.map_eq_some_iff.mp h.symm
    rw [hr']
    exact congrArg some (Option.some.inj (Prod.mk.inj heq).1).symm

/-- As much of the second frame as one `recv` returns with the first, together with it or
apart from it. -/
theorem exists_cuts {ck df : Bytes} {rest : List Bytes} (hck : 0 < ck.length)
    (hck32 : ck.length ≤ 32)
    (hckmod : ck.length % 8 = 0) (hdf : 0 < df.length) (hdfmod : df.length % 8 = 0)
    (hseg : IsSegmentation (df :: rest) (df :: rest).flatten) :
    ∃ s ps, s % 8 = 0 ∧ 0 < s ∧ s ≤ df.length ∧
      IsSegmentation ((ck ++ df.take s) :: ps) (ck :: df :: rest).flatten ∧
      IsSegmentation (ck :: df.take s :: ps) (ck :: df :: rest).flatten := by
  obtain ⟨hflat, hnonempty, hshort⟩ := hseg
  have hdf512 : df.length ≤ 512 := hshort df List.mem_cons_self
  obtain ⟨s, hs⟩ : ∃ s, s = min df.length (512 - ck.length) := ⟨_, rfl⟩
  have htake : (df.take s).length = s := by
    rw [List.length_take]
    omega
  have hrest : IsSegmentation rest rest.flatten :=
    ⟨rfl, fun p hp => hnonempty p (List.mem_cons_of_mem df hp),
      fun p hp => hshort p (List.mem_cons_of_mem df hp)⟩
  obtain ⟨ps, hps⟩ : ∃ ps, IsSegmentation ps (df.drop s ++ rest.flatten) := by
    by_cases hdrop : df.drop s = []
    · rw [hdrop]
      exact ⟨rest, hrest⟩
    · refine ⟨_, hrest.cons hdrop ?_⟩
      rw [List.length_drop]
      omega
  have happart := (hps.cons (p := df.take s) (List.ne_nil_of_length_pos (by omega))
    (by omega)).cons (p := ck) (List.ne_nil_of_length_pos (by omega)) (by omega)
  have htogether := hps.cons (p := ck ++ df.take s)
    (List.ne_nil_of_length_pos (by rw [List.length_append]; omega))
    (by rw [List.length_append]; omega)
  have hstream : (ck :: df :: rest).flatten = ck ++ (df.take s ++ (df.drop s ++ rest.flatten)) := by
    rw [List.flatten_cons, List.flatten_cons, ← List.append_assoc (df.take s),
      List.take_append_drop]
  refine ⟨s, ps, by omega, by omega, by omega, ?_, ?_⟩
  · rw [hstream, ← List.append_assoc]
    exact htogether
  · rw [hstream]
    exact happart

/-- The start of a data frame is lost when it comes together with the checksum frame, and
written when it comes apart from it; what follows is the same. -/
theorem recvLoop_apart (c : Des) (file : Bytes) {chunk : Bytes} (hchunk : chunk.length ≤ 509)
    {s : ℕ} (hs : s % 8 = 0) (hpos : 0 < s) (hle : s ≤ (dataFrame c chunk).length)
    (ps : List Bytes) :
    ∃ w, w.length = chunk.length ∧
      (recvLoop c (frameFrom c cblock modeChecksum (checksumText file) ::
          (dataFrame c chunk).take s :: ps) ⟨[], 0, 0⟩).map RecvState.file =
        (recvLoop c ((frameFrom c cblock modeChecksum (checksumText file) ++
          (dataFrame c chunk).take s) :: ps) ⟨[], 0, 0⟩).map fun r => w ++ r.file := by
  obtain ⟨w, hw, hturn⟩ := recvTurn_data (c := c) ⟨[], 0, ftell file⟩ hchunk hs hpos
    (frameFrom_length (c := c) modeData hchunk ▸ hle) []
  have hck := recvTurn_checksum (c := c) ⟨[], 0, 0⟩ file
  have hckEnd := hck []
  rw [List.append_nil] at hturn hckEnd
  refine ⟨w, hw, ?_⟩
  rw [recvLoop, recvLoop, hck, hckEnd]
  dsimp only
  rw [recvLoop, hturn]
  exact recvLoop_file ps (List.nil_append w ▸ (List.append_nil w).symm)

/-- A file of a byte or more: the client loses the first chunk when part of its frame comes
together with the checksum frame. -/
theorem not_segmentationFree (c : Des) {file : Bytes} (hne : file ≠ []) :
    ¬ SegmentationFree c true true (some file) := by
  intro hfree
  have hchunk : (file.take 509).length ≤ 509 ∧ 0 < (file.take 509).length := by
    have := List.length_pos_of_ne_nil hne
    rw [List.length_take]
    omega
  obtain ⟨rest, hrest⟩ : ∃ rest, sendChunks c file = dataFrame c (file.take 509) :: rest := by
    rw [sendChunks, dif_neg hne]
    exact ⟨_, rfl⟩
  have hstream : lcsWhsSendFile c true (some file) =
      frameFrom c cblock modeChecksum (checksumText file) ::
        dataFrame c (file.take 509) :: rest := by
    rw [lcsWhsSendFile, if_pos rfl, lcs3desSend_checksum, List.singleton_append, hrest]
  obtain ⟨hck8, hck32, hckmod⟩ := checksumFrame_length (c := c) file
  obtain ⟨hdf8, -, hdfmod⟩ := dataFrame_length (c := c) hchunk.1
  have hseg := hrest ▸ sendChunks_segmentation c file
  have hframes : IsSegmentation (lcsWhsSendFile c true (some file))
      (lcsWhsSendFile c true (some file)).flatten := by
    rw [hstream]
    exact hseg.cons (List.ne_nil_of_length_pos (by omega)) (by omega)
  obtain ⟨s, ps, hs, hpos, hle, htogether, happart⟩ :=
    exists_cuts (by omega) hck32 hckmod (by omega) hdfmod hseg
  rw [← hstream] at htogether happart
  obtain ⟨w, hw, hlost⟩ := recvLoop_apart c file hchunk.1 hs hpos hle ps
  have hsame := (recvLoop_of_recv_eq (hfree _ _ htogether happart)).trans hlost
  -- the loop ends, as it does when every frame comes alone
  have hdefined := hfree _ _ hframes htogether
  rw [recv_whole, lcsOdbcRecvFile, if_pos rfl, if_pos rfl] at hdefined
  obtain ⟨r, hr, -⟩ := Option.map_eq_some_iff.mp hdefined.symm
  rw [hr] at hsame
  have hlen := congrArg List.length (Option.some.inj hsame)
  rw [List.length_append] at hlen
  omega

/-- The pieces before one that ends the session. -/
def actedOn (c : Des) (ps : List Bytes) : List Bytes :=
  ps.takeWhile fun p => !decide (EndsSession c p)

theorem actedOn_cons {p : Bytes} (h : ¬ EndsSession c p) (ps : List Bytes) :
    actedOn c (p :: ps) = p :: actedOn c ps := List.takeWhile_cons_of_pos (by simp [h])

theorem actedOn_end {p : Bytes} (h : EndsSession c p) (ps : List Bytes) :
    actedOn c (p :: ps) = [] := List.takeWhile_cons_of_neg (by simp [h])

/-- Pieces that write nothing and leave the client with the size zero. -/
structure Harmless (c : Des) (ps : List Bytes) : Prop where
  noData : ∀ p ∈ actedOn c ps, sentLength c p = 0
  lastChecksum : ((actedOn c ps).filterMap (sentChecksum c)).getLastD 0 = 0

theorem getLastD_filterMap_cons {α β : Type} (f : α → Option β) (x : α) (l : List α) (b : β) :
    ((x :: l).filterMap f).getLastD b = (l.filterMap f).getLastD ((f x).getD b) := by
  rw [List.filterMap_cons]
  cases f x with
  | none => rfl
  | some y => exact List.getLastD_cons

/-- What has been written stays. -/
theorem recvLoop_written {ps : List Bytes} {w : Bytes} (hw : w ≠ []) {total ck : ℕ} {s : RecvState}
    (hs : recvLoop c ps ⟨w, total, ck⟩ = some s) : s.file ≠ [] := by
  have hkept : (recvLoop c ps ⟨w, total, ck⟩).map RecvState.file =
      (recvLoop c ps ⟨[], 0, 0⟩).map fun r => w ++ r.file :=
    recvLoop_file ps (List.append_nil w).symm
  rw [hs, Option.map_some] at hkept
  obtain ⟨r, -, hr⟩ := Option.map_eq_some_iff.mp hkept.symm
  rw [← hr]
  exact List.append_ne_nil_of_left_ne_nil hw r.file

/-- The client ends with an empty file and no error exactly when the pieces are harmless. -/
theorem recvLoop_empty_iff (ps : List Bytes) (ck : ℕ) :
    (∃ s, recvLoop c ps ⟨[], 0, ck⟩ = some s ∧ s.file = [] ∧ s.checksum = s.total) ↔
      (∀ p ∈ actedOn c ps, sentLength c p = 0) ∧
        ((actedOn c ps).filterMap (sentChecksum c)).getLastD ck = 0 := by
  -- where the loop ends, nothing has been counted
  have hend : ∀ ck, (∃ s, some (⟨[], 0, ck⟩ : RecvState) = some s ∧ s.file = [] ∧
      s.checksum = s.total) ↔ (∀ p ∈ ([] : List Bytes), sentLength c p = 0) ∧
        (([] : List Bytes).filterMap (sentChecksum c)).getLastD ck = 0 := by
    intro ck
    constructor
    · rintro ⟨s, hs, -, heq⟩
      cases hs
      exact ⟨fun p hp => absurd hp List.not_mem_nil, heq⟩
    · rintro ⟨-, hck⟩
      exact ⟨_, rfl, rfl, hck⟩
  induction ps generalizing ck with
  | nil => exact hend ck
  | cons p ps ih =>
    rw [recvLoop]
    rcases recvTurn_cases c p with
      ⟨hlong, hopen, hturn⟩ | ⟨w, hw, hopen, hturn⟩ | ⟨hzero, hopen, hturn⟩ | ⟨hends, hturn⟩
    · -- the data does not fit: there is no outcome
      rw [hturn, actedOn_cons hopen, List.forall_mem_cons]
      refine iff_of_false ?_ fun h => absurd h.1.1 (by omega)
      rintro ⟨s, hs, -⟩
      cases hs
    · rw [hturn, actedOn_cons hopen, List.forall_mem_cons, getLastD_filterMap_cons]
      by_cases hzero : sentLength c p = 0
      · have hnil : w = [] := List.eq_nil_of_length_eq_zero (hw.trans hzero)
        rw [hnil, hzero, and_iff_right rfl]
        exact ih _
      · refine iff_of_false ?_ fun h => hzero h.1.1
        rintro ⟨s, hs, hfile, -⟩
        have hne : [] ++ w ≠ [] := by
          rintro rfl
          exact hzero hw.symm
        exact recvLoop_written hne hs hfile
    · rw [hturn, actedOn_cons hopen, List.forall_mem_cons, getLastD_filterMap_cons,
        and_iff_right hzero]
      exact ih _
    · rw [hturn, actedOn_end hends]
      exact hend ck

theorem recv_harmless_iff (ps : List Bytes) :
    lcsOdbcRecvFile c true true ps = some (some [], false) ↔ Harmless c ps := by
  have hloop : lcsOdbcRecvFile c true true ps = some (some [], false) ↔
      ∃ s, recvLoop c ps ⟨[], 0, 0⟩ = some s ∧ s.file = [] ∧ s.checksum = s.total := by
    rw [lcsOdbcRecvFile, if_pos rfl, if_pos rfl, Option.map_eq_some_iff]
    simp only [Prod.mk.injEq, Option.some_inj, decide_eq_false_iff_not, not_not]
  rw [hloop, recvLoop_empty_iff]
  exact ⟨fun h => ⟨h.1, h.2⟩, fun h => ⟨h.noData, h.lastChecksum⟩⟩

theorem checksumText_nil : checksumText [] = [48, 0] := by
  rw [checksumText, show ftell [] = 0 from rfl, natDec, if_pos (by decide)]
  rfl

/-- Of an empty file there is one frame, of a block. -/
theorem lcsWhsSendFile_nil (c : Des) :
    lcsWhsSendFile c true (some []) = [frameFrom c cblock modeChecksum [48, 0]] := by
  rw [lcsWhsSendFile, if_pos rfl, lcs3desSend_checksum, sendChunks, dif_pos rfl, List.append_nil,
    checksumText_nil]

/-- An empty file comes in one piece, or in others that do no harm. -/
theorem segmentationFree_nil (c : Des) :
    SegmentationFree c true true (some []) ↔
      ∀ ps, IsSegmentation ps (frameFrom c cblock modeChecksum [48, 0]) → Harmless c ps := by
  have hstream : (lcsWhsSendFile c true (some [])).flatten =
      frameFrom c cblock modeChecksum [48, 0] := by
    rw [lcsWhsSendFile_nil, List.flatten_singleton]
  have hwhole : lcsOdbcRecvFile c true true (lcsWhsSendFile c true (some [])) =
      some (some [], false) := recv_whole c []
  have hone : IsSegmentation (lcsWhsSendFile c true (some []))
      (frameFrom c cblock modeChecksum [48, 0]) := by
    obtain ⟨hmin, hmax, -⟩ := checksumFrame_length (c := c) []
    rw [checksumText_nil] at hmin hmax
    rw [lcsWhsSendFile_nil]
    refine ⟨List.flatten_singleton, ?_, ?_⟩
    · rw [List.forall_mem_singleton]
      exact List.ne_nil_of_length_pos (by omega)
    · rw [List.forall_mem_singleton]
      omega
  unfold SegmentationFree
  rw [hstream]
  constructor
  · intro hfree ps hps
    rw [← recv_harmless_iff, hfree ps _ hps hone, hwhole]
  · intro hharmless ps ps' hps hps'
    rw [(recv_harmless_iff ps).mpr (hharmless ps hps),
      (recv_harmless_iff ps').mpr (hharmless ps' hps')]

/-- The result depends on the segmentation as soon as the file has a byte; of an empty
file it does not exactly when its one frame can only be cut into harmless pieces. -/
theorem segmentation_free_iff (c : Des) (opened keys : Bool) (file : Option Bytes) :
    SegmentationFree c opened keys file ↔
      opened = false ∨ keys = false ∨ file = none ∨ file = some [] ∧
        ∀ ps, IsSegmentation ps (frameFrom c cblock modeChecksum [48, 0]) → Harmless c ps := by
  cases opened with
  | false => exact iff_of_true (fun _ _ _ _ => rfl) (Or.inl rfl)
  | true =>
    cases keys with
    | false => exact iff_of_true (fun _ _ _ _ => rfl) (Or.inr (Or.inl rfl))
    | true =>
      cases file with
      | none =>
        refine iff_of_true (fun ps ps' hps hps' => ?_) (Or.inr (Or.inr (Or.inl rfl)))
        rw [IsSegmentation.eq_nil hps, IsSegmentation.eq_nil hps']
      | some file =>
        by_cases hne : file = []
        · rw [hne, segmentationFree_nil]
          simp
        · refine iff_of_false (not_segmentationFree c hne) ?_
          simp [hne]

/-- A file of one byte, in one `recv` or in two. -/
theorem segmentation_matters : ¬ SegmentationFree reverseBlocks true true (some [65]) :=
  not_segmentationFree reverseBlocks (List.cons_ne_nil 65 [])

end MemoryLeak.Cluster
