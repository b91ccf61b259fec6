import MemoryLeak.CText

/-!
# Text files read line by line

What successive `fgets` calls leave in a buffer: a line with its newline, or as much of a
line as the buffer holds. Lines that fit are read back as they were written, one for each
call, whatever stands before and behind them.
-/
namespace MemoryLeak.TextFile
open MemoryLeak.CBytes MemoryLeak.CText

/-- The pieces of at most `n` bytes of the rest of a file, the current one begun with `cur`. -/
def piecesFrom (n : ℕ) (cur : Bytes) : Bytes → List Bytes
  | [] => if cur = [] then [] else [cur]
  | c :: s =>
    if c = 10 ∨ cur.length + 1 = n then (cur ++ [c]) :: piecesFrom n [] s
    else piecesFrom n (cur ++ [c]) s

/-- The results of `fgets(buffer, size, fp)` up to the end of the file. -/
def fgetsAll (size : ℕ) (file : Bytes) : List Bytes := piecesFrom (size - 1) [] file

variable {n : ℕ}

/-- Nothing is lost, and no call returns nothing. -/
theorem piecesFrom_flatten (cur s : Bytes) : (piecesFrom n cur s).flatten = cur ++ s := by
  induction s generalizing cur with
  | nil =>
    rw [piecesFrom, List.append_nil]
    split_ifs with h
    · rw [h, List.flatten_nil]
    · exact List.flatten_singleton
  | cons c s ih =>
    rw [piecesFrom]
    split_ifs with h
    · rw [List.flatten_cons, ih, List.append_assoc, List.nil_append, List.singleton_append]
    · rw [ih, List.append_assoc, List.singleton_append]

theorem piecesFrom_ne_nil {cur s p : Bytes} (hp : p ∈ piecesFrom n cur s) : p ≠ [] := by
  induction s generalizing cur with
  | nil =>
    rw [piecesFrom] at hp
    split_ifs at hp with h
    · cases hp
    · exact List.mem_singleton.mp hp ▸ h
  | cons c s ih =>
    rw [piecesFrom] at hp
    split_ifs at hp with h
    · rcases List.mem_cons.mp hp with rfl | hp
      · exact List.append_ne_nil_of_right_ne_nil _ (List.cons_ne_nil c [])
      · exact ih hp
    · exact ih hp

/-- What is read from a file without NUL does not start with one. -/
theorem fgetsAll_byteAt {size : ℕ} {file : Bytes} (hfile : (0 : UInt8) ∉ file) {b : Bytes}
    (hb : b ∈ fgetsAll size file) : byteAt b 0 ≠ 0 := by
  have hmem : ∀ c ∈ b, c ∈ file := by
    intro c hc
    rw [← List.nil_append file, ← piecesFrom_flatten (n := size - 1)]
    exact List.mem_flatten.mpr ⟨b, hb, hc⟩
  intro h0
  exact piecesFrom_ne_nil hb ((byteAt_zero_iff fun h => hfile (hmem 0 h)).mp h0)

/-- A line that fits. -/
theorem piecesFrom_line {l : Bytes} (hl : (10 : UInt8) ∉ l) {cur : Bytes}
    (hfits : cur.length + l.length + 1 ≤ n) (s : Bytes) :
    piecesFrom n cur (l ++ 10 :: s) = (cur ++ l ++ [10]) :: piecesFrom n [] s := by
  induction l generalizing cur with
  | nil => rw [List.nil_append, piecesFrom, if_pos (Or.inl rfl), List.append_nil]
  | cons c l ih =>
    rw [List.length_cons] at hfits
    have hc : c ≠ 10 := fun h => hl (h ▸ List.mem_cons_self)
    rw [List.cons_append, piecesFrom, if_neg (by rintro (h | h); exacts [hc h, by omega]),
      ih (fun h => hl (List.mem_cons_of_mem c h))
        (by rw [List.length_append, List.length_singleton]; omega)]
    simp only [List.append_assoc, List.singleton_append]

/-- A line of any length: its pieces, and more than one when it does not fit. -/
theorem piecesFrom_long (hn : 0 < n) (l : Bytes) {cur : Bytes} (hcur : cur.length < n) (s : Bytes) :
    ∃ ps, piecesFrom n cur (l ++ 10 :: s) = ps ++ piecesFrom n [] s ∧
      ps.flatten = cur ++ l ++ [10] ∧
      ((10 : UInt8) ∉ l → n < cur.length + l.length + 1 → 2 ≤ ps.length) := by
  induction l generalizing cur with
  | nil =>
    refine ⟨[cur ++ [10]], ?_, ?_, ?_⟩
    · rw [List.nil_append, piecesFrom, if_pos (Or.inl rfl)]
      rfl
    · rw [List.flatten_singleton, List.append_nil]
    · intro _ hlong
      rw [List.length_nil] at hlong
      omega
  | cons c l ih =>
    rw [List.cons_append, piecesFrom]
    by_cases hcut : c = 10 ∨ cur.length + 1 = n
    · obtain ⟨ps, heq, hflat, -⟩ := ih (show ([] : Bytes).length < n from hn)
      have hlen : ps ≠ [] := by
        rintro rfl
        simp at hflat
      refine ⟨(cur ++ [c]) :: ps, ?_, ?_, ?_⟩
      · rw [if_pos hcut, heq]
        rfl
      · rw [List.flatten_cons, hflat]
        simp
      · intro _ _
        have := List.length_pos_of_ne_nil hlen
        rw [List.length_cons]
        omega
    · have hroom : (cur ++ [c]).length < n := by
        rw [List.length_append, List.length_singleton]
        omega
      obtain ⟨ps, heq, hflat, hmany⟩ := ih hroom
      refine ⟨ps, ?_, ?_, ?_⟩
      · rw [if_neg hcut, heq]
      · rw [hflat]
        simp
      · intro hl hlong
        refine hmany (fun h => hl (List.mem_cons_of_mem c h)) ?_
        rw [List.length_append, List.length_singleton]
        rw [List.length_cons] at hlong
        omega

/-- A file of lines: one call for each line, and one more at least for a line that does not
fit. -/
theorem piecesFrom_lines (hn : 0 < n) {ls : List Bytes} (hls : ∀ l ∈ ls, (10 : UInt8) ∉ l) :
    ls.length ≤ (piecesFrom n [] (ls.flatMap (· ++ [10]))).length ∧
      ((piecesFrom n [] (ls.flatMap (· ++ [10]))).length = ls.length →
        ∀ l ∈ ls, l.length + 1 ≤ n) := by
  induction ls with
  | nil => exact ⟨Nat.zero_le _, fun _ l hl => absurd hl List.not_mem_nil⟩
  | cons l ls ih =>
    obtain ⟨hle, hfits⟩ := ih fun m hm => hls m (List.mem_cons_of_mem l hm)
    obtain ⟨ps, heq, hflat, hmany⟩ := piecesFrom_long hn l
      (show ([] : Bytes).length < n from hn) (ls.flatMap (· ++ [10]))
    have hlen : 0 < ps.length := by
      apply List.length_pos_of_ne_nil
      rintro rfl
      simp at hflat
    rw [List.flatMap_cons, List.append_assoc, List.singleton_append, heq, List.length_append,
      List.length_cons]
    refine ⟨by omega, fun hcount m hm => ?_⟩
    rcases List.mem_cons.mp hm with rfl | hm
    · by_contra hlong
      have := hmany (hls m List.mem_cons_self) (by rw [List.length_nil]; omega)
      omega
    · exact hfits (by omega) m hm

/-- Lines that fit are read as they were written. -/
theorem piecesFrom_lines_fit {ls : List Bytes}
    (hls : ∀ l ∈ ls, (10 : UInt8) ∉ l ∧ l.length + 1 ≤ n) (s : Bytes) :
    piecesFrom n [] (ls.flatMap (· ++ [10]) ++ s) = ls.map (· ++ [10]) ++ piecesFrom n [] s := by
  induction ls with
  | nil => rfl
  | cons l ls ih =>
    obtain ⟨hl, hfits⟩ := hls l List.mem_cons_self
    rw [List.flatMap_cons, List.append_assoc, List.append_assoc, List.singleton_append,
      piecesFrom_line hl (by rw [List.length_nil]; omega),
      ih fun m hm => hls m (List.mem_cons_of_mem l hm)]
    rfl

/-- A file of such lines only. -/
theorem fgetsAll_lines {size : ℕ} {ls : List Bytes}
    (hls : ∀ l ∈ ls, (10 : UInt8) ∉ l ∧ l.length + 1 ≤ size - 1) :
    fgetsAll size (ls.flatMap (· ++ [10])) = ls.map (· ++ [10]) := by
  have hpieces := piecesFrom_lines_fit hls []
  rwa [List.append_nil, piecesFrom, if_pos rfl, List.append_nil] at hpieces

/-- What stands behind the last newline. -/
theorem piecesFrom_tail {t : Bytes} (ht : (10 : UInt8) ∉ t) {cur : Bytes} (hne : cur ++ t ≠ [])
    (hfits : cur.length + t.length < n) : piecesFrom n cur t = [cur ++ t] := by
  induction t generalizing cur with
  | nil =>
    rw [List.append_nil] at hne
    rw [piecesFrom, if_neg hne, List.append_nil]
  | cons c t ih =>
    rw [List.length_cons] at hfits
    have hc : c ≠ 10 := fun h => ht (h ▸ List.mem_cons_self)
    rw [piecesFrom, if_neg (by rintro (h | h); exacts [hc h, by omega]),
      ih (fun h => ht (List.mem_cons_of_mem c h)) (by simp)
        (by rw [List.length_append, List.length_singleton]; omega)]
    simp only [List.append_assoc, List.singleton_append]

/-! ### One call -/

/-- `fgets(buffer, size, fp)` with a zeroed `buffer`: what it holds then, nothing at the end of
the file, and what is left of the file. -/
def fgets (size : ℕ) (fp : Bytes) : Bytes × Bytes :=
  let piece := (fgetsAll size fp).headD []
  (piece, fp.drop piece.length)

/-- The first piece starts the file. -/
theorem piecesFrom_head_starts (cur s : Bytes) : (piecesFrom n cur s).headD [] <+: cur ++ s := by
  have hflat := piecesFrom_flatten (n := n) cur s
  cases hp : piecesFrom n cur s with
  | nil => exact List.nil_prefix
  | cons p ps =>
    rw [hp, List.flatten_cons] at hflat
    exact ⟨ps.flatten, hflat⟩

theorem piecesFrom_head_length_le (s : Bytes) {cur : Bytes} (hcur : cur.length < n) :
    ((piecesFrom n cur s).headD []).length ≤ n := by
  induction s generalizing cur with
  | nil =>
    rw [piecesFrom]
    split_ifs with h
    · exact Nat.zero_le n
    · exact hcur.le
  | cons c s ih =>
    have hlen : (cur ++ [c]).length = cur.length + 1 := by
      rw [List.length_append, List.length_singleton]
    rw [piecesFrom]
    split_ifs with hcut
    · rw [List.headD_cons, hlen]
      exact hcur
    · rw [not_or] at hcut
      exact ih (by omega)

/-- The first piece is all of it where it fits and its only newline, if any, is the last. -/
theorem piecesFrom_head_eq_iff (s : Bytes) {cur : Bytes} (hcur : cur.length < n) :
    (piecesFrom n cur s).headD [] = cur ++ s ↔
      cur.length + s.length ≤ n ∧ (10 : UInt8) ∉ s.dropLast := by
  induction s generalizing cur with
  | nil =>
    have hhead : (piecesFrom n cur []).headD [] = cur := by
      rw [piecesFrom]
      split_ifs with h
      · exact h.symm
      · rfl
    rw [hhead, List.append_nil, List.length_nil, List.dropLast_nil]
    simpa using hcur.le
  | cons c s ih =>
    rw [piecesFrom]
    split_ifs with hcut
    · have hhead : cur ++ [c] = cur ++ c :: s ↔ s = [] := by
        rw [List.append_right_inj, List.cons.injEq, and_iff_right rfl, eq_comm]
      rw [List.headD_cons, hhead]
      constructor
      · rintro rfl
        exact ⟨hcur, List.not_mem_nil⟩
      · rintro ⟨hlen, hline⟩
        by_contra hs
        rw [List.length_cons] at hlen
        have hpos := List.length_pos_of_ne_nil hs
        rcases hcut with rfl | hfull
        · rw [List.dropLast_cons_of_ne_nil hs] at hline
          exact hline List.mem_cons_self
        · omega
    · rw [not_or] at hcut
      have hroom : (cur ++ [c]).length < n := by
        rw [List.length_append, List.length_singleton]
        omega
      have hassoc : cur ++ c :: s = cur ++ [c] ++ s := by
        rw [List.append_assoc, List.singleton_append]
      have hline : (10 : UInt8) ∉ (c :: s).dropLast ↔ (10 : UInt8) ∉ s.dropLast := by
        cases s with
        | nil => simp
        | cons d s => simp [Ne.symm hcut.1]
      rw [hassoc, ih hroom, hline, List.length_append, List.length_singleton, List.length_cons]
      exact and_congr_left' (by omega)

/-- What one call leaves in the buffer starts the file. -/
theorem fgets_starts (size : ℕ) (fp : Bytes) : (fgets size fp).1 <+: fp :=
  piecesFrom_head_starts [] fp

/-- There is always room for the NUL. -/
theorem fgets_length_lt {size : ℕ} (hsize : 1 < size) (fp : Bytes) :
    (fgets size fp).1.length < size := by
  have hroom : ([] : Bytes).length < size - 1 := by
    rw [List.length_nil]
    omega
  have hlen := piecesFrom_head_length_le fp hroom
  exact lt_of_le_of_lt hlen (by omega)

/-- One call reads the whole file. -/
theorem fgets_eq_iff {size : ℕ} (hsize : 1 < size) (fp : Bytes) :
    (fgets size fp).1 = fp ↔ fp.length < size ∧ (10 : UInt8) ∉ fp.dropLast := by
  have hroom : ([] : Bytes).length < size - 1 := by
    rw [List.length_nil]
    omega
  have hhead := piecesFrom_head_eq_iff fp hroom
  rw [List.nil_append, List.length_nil] at hhead
  rw [fgets, fgetsAll, hhead]
  exact and_congr_left' (by omega)

/-! ### Lines and the end of the file -/

/-- The lines of a file, each with its newline; the last one may have none. -/
def lines : Bytes → List Bytes
  | [] => []
  | c :: s =>
    if c = 10 then [c] :: lines s
    else
      match lines s with
      | [] => [[c]]
      | l :: ls => (c :: l) :: ls

/-- At most `n` bytes of a file, up to a newline, what is left, and whether its end was met. -/
def readPiece : ℕ → Bytes → Bytes × Bytes × Bool
  | 0, s => ([], s, false)
  | _ + 1, [] => ([], [], true)
  | n + 1, c :: s =>
    if c = 10 then ([c], s, false)
    else
      let r := readPiece n s
      (c :: r.1, r.2)

/-- A file that is read, and what `feof` says of it. -/
structure TextStream where
  rest : Bytes
  eof : Bool

/-- `fgets(buffer, size, fp)` with a zeroed `buffer`; a size that has no room for a byte reads
nothing, not even the end of the file. -/
def TextStream.fgets (size : ℤ) (fp : TextStream) : Bytes × TextStream :=
  if size ≤ 1 then ([], fp)
  else
    let r := readPiece (size - 1).toNat fp.rest
    (r.1, ⟨r.2.1, r.2.2⟩)

theorem lines_eq_nil_iff {s : Bytes} : lines s = [] ↔ s = [] := by
  cases s with
  | nil => exact iff_of_true rfl rfl
  | cons c s =>
    refine iff_of_false (fun h => ?_) (List.cons_ne_nil c s)
    rw [lines] at h
    split_ifs at h
    split at h
    · cases h
    · cases h

/-- A line that begins a file: it is one newline, the last byte, or a byte before a line. -/
theorem lines_cons {c : UInt8} {s l : Bytes} {ls : List Bytes} (h : lines (c :: s) = l :: ls) :
    c = 10 ∧ l = [c] ∧ lines s = ls ∨
      c ≠ 10 ∧ (s = [] ∧ l = [c] ∧ ls = [] ∨ ∃ l', l = c :: l' ∧ lines s = l' :: ls) := by
  rw [lines] at h
  by_cases hc : c = 10
  · rw [if_pos hc] at h
    obtain ⟨rfl, rfl⟩ := List.cons.inj h
    exact Or.inl ⟨hc, rfl, rfl⟩
  · rw [if_neg hc] at h
    refine Or.inr ⟨hc, ?_⟩
    cases hs : lines s with
    | nil =>
      rw [hs] at h
      obtain ⟨rfl, rfl⟩ := List.cons.inj h
      exact Or.inl ⟨lines_eq_nil_iff.mp hs, rfl, rfl⟩
    | cons l' ls' =>
      rw [hs] at h
      obtain ⟨rfl, rfl⟩ := List.cons.inj h
      exact Or.inr ⟨l', rfl, rfl⟩

theorem ne_nil_of_lines {s l : Bytes} {ls : List Bytes} (h : lines s = l :: ls) : l ≠ [] := by
  cases s with
  | nil => cases h
  | cons c s =>
    rcases lines_cons h with ⟨-, rfl, -⟩ | ⟨-, ⟨-, rfl, -⟩ | ⟨l', rfl, -⟩⟩
    · exact List.cons_ne_nil _ _
    · exact List.cons_ne_nil _ _
    · exact List.cons_ne_nil _ _

theorem lines_ne_nil {s l : Bytes} (hl : l ∈ lines s) : l ≠ [] := by
  induction s generalizing l with
  | nil => cases hl
  | cons c s ih =>
    cases hlines : lines (c :: s) with
    | nil =>
      rw [hlines] at hl
      cases hl
    | cons l₁ ls =>
      rw [hlines] at hl
      rcases List.mem_cons.mp hl with rfl | hmem
      · exact ne_nil_of_lines hlines
      · rcases lines_cons hlines with ⟨-, -, hs⟩ | ⟨-, ⟨-, -, rfl⟩ | ⟨l', -, hs⟩⟩
        · exact ih (hs ▸ hmem)
        · cases hmem
        · exact ih (hs ▸ List.mem_cons_of_mem l' hmem)

/-- A line that fits is read in one piece. -/
theorem readPiece_fits {n : ℕ} {s l : Bytes} {ls : List Bytes} (h : lines s = l :: ls)
    (hn : l.length ≤ n) :
    ∃ s' eof, readPiece n s = (l, s', eof) ∧ lines s' = ls ∧ (eof = true → s' = []) := by
  induction n generalizing s l with
  | zero => exact absurd (List.length_eq_zero_iff.mp (Nat.le_zero.mp hn)) (ne_nil_of_lines h)
  | succ n ih =>
    cases s with
    | nil => cases h
    | cons c s =>
      rcases lines_cons h with ⟨hc, rfl, hs⟩ | ⟨hc, ⟨rfl, rfl, rfl⟩ | ⟨l', rfl, hs⟩⟩
      · exact ⟨s, false, by rw [readPiece, if_pos hc], hs, fun heof =>
          absurd heof Bool.false_ne_true⟩
      · cases n with
        | zero => exact ⟨[], false, by rw [readPiece, if_neg hc]; rfl, rfl, fun _ => rfl⟩
        | succ n => exact ⟨[], true, by rw [readPiece, if_neg hc]; rfl, rfl, fun _ => rfl⟩
      · obtain ⟨s', eof, hread, hlines, heof⟩ := ih hs (Nat.le_of_succ_le_succ hn)
        exact ⟨s', eof, by rw [readPiece, if_neg hc, hread], hlines, heof⟩

/-- The first piece of a line that does not fit. -/
theorem readPiece_long {n : ℕ} {s l : Bytes} {ls : List Bytes} (h : lines s = l :: ls)
    (hn : n < l.length) :
    ∃ p s', readPiece n s = (p, s', false) ∧ ∃ l', l = p ++ l' ∧ lines s' = l' :: ls := by
  induction n generalizing s l with
  | zero => exact ⟨[], s, rfl, l, rfl, h⟩
  | succ n ih =>
    cases s with
    | nil => cases h
    | cons c s =>
      rcases lines_cons h with ⟨hc, rfl, hs⟩ | ⟨hc, ⟨rfl, rfl, rfl⟩ | ⟨l', rfl, hs⟩⟩
      · exact absurd hn (by simp)
      · exact absurd hn (by simp)
      · obtain ⟨p, s', hread, l'', rfl, hlines⟩ := ih hs (Nat.lt_of_succ_lt_succ hn)
        exact ⟨c :: p, s', by rw [readPiece, if_neg hc, hread], l'', rfl, hlines⟩

/-- The pieces of a file are what one call reads, and the pieces of what it leaves. -/
theorem piecesFrom_readPiece {cur : Bytes} (hcur : cur.length < n) (s : Bytes)
    (hne : cur ++ s ≠ []) :
    piecesFrom n cur s = (cur ++ (readPiece (n - cur.length) s).1) ::
      piecesFrom n [] (readPiece (n - cur.length) s).2.1 := by
  induction s generalizing cur with
  | nil =>
    obtain ⟨m, hm⟩ : ∃ m, n - cur.length = m + 1 := ⟨n - cur.length - 1, by omega⟩
    rw [List.append_nil] at hne
    rw [hm, readPiece, piecesFrom, if_neg hne, piecesFrom, if_pos rfl, List.append_nil]
  | cons c s ih =>
    obtain ⟨m, hm⟩ : ∃ m, n - cur.length = m + 1 := ⟨n - cur.length - 1, by omega⟩
    rw [hm, readPiece, piecesFrom]
    by_cases hc : c = 10
    · rw [if_pos (Or.inl hc), if_pos hc]
    · rw [if_neg hc]
      by_cases hfull : cur.length + 1 = n
      · have hzero : m = 0 := by omega
        rw [if_pos (Or.inr hfull), hzero, readPiece]
      · have hnot : ¬ (c = 10 ∨ cur.length + 1 = n) := by
          rw [not_or]
          exact ⟨hc, hfull⟩
        have hlen : (cur ++ [c]).length = cur.length + 1 := by simp
        have hleft : n - (cur ++ [c]).length = m := by omega
        have hih := @ih (cur ++ [c]) (by omega) (by simp)
        rw [hleft] at hih
        rw [if_neg hnot, hih, List.append_assoc, List.singleton_append]

theorem readPiece_ne_nil {n : ℕ} (hn : 0 < n) {s : Bytes} (hs : s ≠ []) :
    (readPiece n s).1 ≠ [] ∧ (readPiece n s).2.1.length < s.length := by
  induction n generalizing s with
  | zero => exact absurd hn (lt_irrefl 0)
  | succ n ih =>
    cases s with
    | nil => exact absurd rfl hs
    | cons c s =>
      rw [readPiece]
      split_ifs with hc
      · exact ⟨List.cons_ne_nil _ _, Nat.lt_succ_self _⟩
      · refine ⟨List.cons_ne_nil _ _, ?_⟩
        cases n with
        | zero => exact Nat.lt_succ_self _
        | succ n =>
          cases s with
          | nil => exact Nat.succ_pos 0
          | cons d s =>
            exact (ih (Nat.succ_pos n) (List.cons_ne_nil d s)).2.trans (Nat.lt_succ_self _)

theorem readPiece_append (n : ℕ) (s : Bytes) : (readPiece n s).1 ++ (readPiece n s).2.1 = s := by
  induction n generalizing s with
  | zero => rfl
  | succ n ih =>
    cases s with
    | nil => rfl
    | cons c s =>
      rw [readPiece]
      split_ifs with hc
      · rfl
      · exact congrArg (c :: ·) (ih s)

theorem readPiece_eof {n : ℕ} {s : Bytes} (h : (readPiece n s).2.2 = true) :
    (readPiece n s).2.1 = [] := by
  induction n generalizing s with
  | zero => cases h
  | succ n ih =>
    cases s with
    | nil => rfl
    | cons c s =>
      rw [readPiece] at h ⊢
      split_ifs at h ⊢ with hc
      exact ih h

/-- A file has as many pieces as lines, or more where a line does not fit. -/
theorem fgetsAll_lines_iff {size : ℕ} (hsize : 1 < size) (file : Bytes) :
    (lines file).length ≤ (fgetsAll size file).length ∧
      ((fgetsAll size file).length = (lines file).length ↔ ∀ l ∈ lines file, l.length < size) ∧
      ((∀ l ∈ lines file, l.length < size) → fgetsAll size file = lines file) := by
  induction hm : file.length using Nat.strongRecOn generalizing file with
  | ind m ih =>
    cases hlines : lines file with
    | nil =>
      obtain rfl := lines_eq_nil_iff.mp hlines
      exact ⟨Nat.zero_le _, iff_of_true rfl fun l hl => absurd hl List.not_mem_nil, fun _ => rfl⟩
    | cons l ls =>
      have hfile : file ≠ [] := fun h => by
        rw [h] at hlines
        cases hlines
      have hpieces : fgetsAll size file = (readPiece (size - 1) file).1 ::
          fgetsAll size (readPiece (size - 1) file).2.1 :=
        piecesFrom_readPiece (show ([] : Bytes).length < size - 1 by rw [List.length_nil]; omega)
          file hfile
      have hless := (readPiece_ne_nil (show 0 < size - 1 by omega) hfile).2
      obtain ⟨hle, hcount, heq⟩ := ih _ (hm ▸ hless) _ rfl
      by_cases hfits : l.length ≤ size - 1
      · obtain ⟨s', eof, hread, hrest, -⟩ := readPiece_fits hlines hfits
        rw [hread] at hpieces hle hcount heq
        simp only [hrest] at hle hcount heq
        have hl : l.length < size := by omega
        rw [hpieces]
        simp only [List.length_cons, List.forall_mem_cons, hl, true_and, Nat.add_right_cancel_iff]
        exact ⟨Nat.succ_le_succ hle, hcount, fun h => congrArg (l :: ·) (heq h)⟩
      · obtain ⟨p, s', hread, l', -, hrest⟩ := readPiece_long hlines (not_le.mp hfits)
        rw [hread] at hpieces hle
        simp only [hrest, List.length_cons] at hle
        have hlong : ¬ ∀ l' ∈ l :: ls, l'.length < size := fun h => by
          have := h l List.mem_cons_self
          omega
        rw [hpieces]
        simp only [List.length_cons]
        exact ⟨by omega, iff_of_false (by omega) hlong, fun h => absurd h hlong⟩

/-! ### Lines of fields -/

/-- Each field is followed by a tab, the last of them by a newline too. -/
def tabLine (fields : List Bytes) : Bytes := fields.flatMap (fun f => f ++ [9]) ++ [10]

/-- A text that neither ends a field nor a line. -/
def Plain (t : Bytes) : Prop := (9 : UInt8) ∉ t ∧ (10 : UInt8) ∉ t

/-- One line of `k` fields. -/
def IsTabLine (k : ℕ) (s : Bytes) : Prop :=
  ∃ fields : List Bytes, fields.length = k ∧ (∀ f ∈ fields, Plain f) ∧ s = tabLine fields

theorem count_tab_tabLine (fields : List Bytes) :
    (tabLine fields).count 9 = fields.length + fields.flatten.count 9 := by
  simp only [tabLine, List.count_append]
  induction fields with
  | nil => rfl
  | cons f fields ih =>
    simp only [List.flatMap_cons, List.flatten_cons, List.count_append, List.length_cons,
      List.count_cons_self, List.count_nil] at ih ⊢
    omega

theorem count_newline_tabLine (fields : List Bytes) :
    (tabLine fields).count 10 = fields.flatten.count 10 + 1 := by
  simp only [tabLine, List.count_append]
  induction fields with
  | nil => rfl
  | cons f fields ih =>
    have htab : ([9] : Bytes).count 10 = 0 := rfl
    simp only [List.flatMap_cons, List.flatten_cons, List.count_append, htab] at ih ⊢
    omega

theorem plain_iff_count {fields : List Bytes} :
    (∀ f ∈ fields, Plain f) ↔ fields.flatten.count 9 = 0 ∧ fields.flatten.count 10 = 0 := by
  simp only [List.count_eq_zero, List.mem_flatten, not_exists, not_and, Plain, forall_and]

theorem IsTabLine.count_tab {k : ℕ} {s : Bytes} (h : IsTabLine k s) : s.count 9 = k := by
  obtain ⟨fields, hlen, hplain, rfl⟩ := h
  rw [count_tab_tabLine, (plain_iff_count.mp hplain).1, hlen, Nat.add_zero]

theorem IsTabLine.count_newline {k : ℕ} {s : Bytes} (h : IsTabLine k s) : s.count 10 = 1 := by
  obtain ⟨fields, -, hplain, rfl⟩ := h
  rw [count_newline_tabLine, (plain_iff_count.mp hplain).2]

/-- The tabs and the newlines of a line tell how many fields it has. -/
theorem isTabLine_tabLine_iff {k : ℕ} {fields : List Bytes} (h : k ≤ fields.length) :
    IsTabLine k (tabLine fields) ↔ fields.length = k ∧ ∀ f ∈ fields, Plain f := by
  constructor
  · intro hline
    have htab := hline.count_tab
    have hnewline := hline.count_newline
    rw [count_tab_tabLine] at htab
    rw [count_newline_tabLine] at hnewline
    rw [plain_iff_count]
    omega
  · rintro ⟨hlen, hplain⟩
    exact ⟨fields, hlen, hplain, rfl⟩

end MemoryLeak.TextFile
