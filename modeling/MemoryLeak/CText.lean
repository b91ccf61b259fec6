import MemoryLeak.CBytes
import MemoryLeak.Sorting
import Mathlib.Data.List.Infix
import Mathlib.Data.List.Lex

/-!
# C text

Strings as `strcmp` sees them: the bytes before the first NUL, compared as unsigned
numbers. Decimal numbers as `%d` prints and scans them, and the tokens that repeated
calls of `strtok` find.
-/
namespace MemoryLeak.CText
open MemoryLeak.CBytes MemoryLeak.Sorting

/-- The text of a string. -/
def text (s : Bytes) : Bytes := s.takeWhile (· != 0)

/-- `strcmp`, the bytes compared unsigned, the value the difference of the first two that
differ. -/
def strcmp : Bytes → Bytes → ℤ
  | [], [] => 0
  | [], y :: _ => -(y.toNat : ℤ)
  | x :: _, [] => x.toNat
  | x :: a, y :: b => if x ≠ y then (x.toNat : ℤ) - y.toNat else if x = 0 then 0 else strcmp a b

/-- The numbers that `strcmp` compares. -/
def codes (s : Bytes) : List ℕ := (text s).map UInt8.toNat

theorem codes_inj {a b : Bytes} : codes a = codes b ↔ text a = text b :=
  (List.map_injective_iff.mpr fun _ _ h => UInt8.toNat_inj.mp h).eq_iff

theorem codes_cons (x : UInt8) (a : Bytes) :
    codes (x :: a) = if x = 0 then [] else x.toNat :: codes a := by
  by_cases hx : x = 0
  · simp [codes, text, hx]
  · simp [codes, text, hx]

theorem toNat_pos {x : UInt8} (hx : x ≠ 0) : 0 < x.toNat := by
  rcases Nat.eq_zero_or_pos x.toNat with h | h
  · exact absurd (UInt8.toNat_inj.mp h) hx
  · exact h

/-- The sign of `strcmp` is the lexicographic order of the texts. -/
theorem strcmp_sign (a b : Bytes) :
    (strcmp a b < 0 ↔ codes a < codes b) ∧ (strcmp a b = 0 ↔ codes a = codes b) := by
  induction a, b using strcmp.induct with
  | case1 => simp [strcmp]
  | case2 y b =>
    by_cases hy : y = 0
    · simp [strcmp, hy, codes, text]
    · have hpos := toNat_pos hy
      simp [strcmp, hy, codes, text]
      omega
  | case3 x a =>
    by_cases hx : x = 0
    · simp [strcmp, hx, codes, text]
    · have hpos := toNat_pos hx
      simp [strcmp, hx, codes, text]
      omega
  | case4 x a y b hxy =>
    have hne : x.toNat ≠ y.toNat := fun h => hxy (UInt8.toNat_inj.mp h)
    simp only [strcmp, if_pos hxy, codes_cons]
    by_cases hx : x = 0
    · have hpos := toNat_pos fun hy => hxy (hx.trans hy.symm)
      simp [hx, show y ≠ 0 from fun hy => hxy (hx.trans hy.symm)]
      omega
    · have hpos := toNat_pos hx
      by_cases hy : y = 0
      · simp [hx, hy]
        omega
      · simp [hx, hy, List.cons_lt_cons_iff, hne]
        omega
  | case5 a y b hy =>
    have hzero : y = 0 := (not_not.mp hy).symm
    simp [strcmp, codes_cons, hzero]
  | case6 x a y b hxy hx ih =>
    have heq : y = x := (not_not.mp hxy).symm
    subst heq
    simp [strcmp, codes_cons, hx, ih]

theorem strcmp_nonpos_iff (a b : Bytes) : strcmp a b ≤ 0 ↔ codes a ≤ codes b := by
  have hsign := strcmp_sign a b
  calc strcmp a b ≤ 0 ↔ strcmp a b < 0 ∨ strcmp a b = 0 := by omega
    _ ↔ codes a < codes b ∨ codes a = codes b := or_congr hsign.1 hsign.2
    _ ↔ codes a ≤ codes b := le_iff_lt_or_eq.symm

theorem strcmp_nonneg_iff (a b : Bytes) : 0 ≤ strcmp a b ↔ codes b ≤ codes a := by
  calc 0 ≤ strcmp a b ↔ ¬ strcmp a b < 0 := by omega
    _ ↔ ¬ codes a < codes b := not_congr (strcmp_sign a b).1
    _ ↔ codes b ≤ codes a := not_lt

theorem strcmp_isComparison : IsComparison strcmp := by
  constructor
  · intro a b
    rw [strcmp_nonpos_iff, strcmp_nonneg_iff]
  · intro a b c hab hbc
    rw [strcmp_nonpos_iff] at *
    exact hab.trans hbc

/-- A terminated string in a `char[n]`. -/
structure CStr (n : ℕ) where
  bytes : Bytes
  lt : bytes.length < n
  noNul : (0 : UInt8) ∉ bytes

theorem CStr.ext {n : ℕ} {a b : CStr n} (h : a.bytes = b.bytes) : a = b := by
  cases a
  cases b
  cases h
  rfl

theorem text_of_noNul {s : Bytes} (h : (0 : UInt8) ∉ s) : text s = s := by
  rw [text, List.takeWhile_eq_self_iff]
  intro x hx
  simpa using fun hx0 : x = 0 => h (hx0 ▸ hx)

theorem text_append_nul {s : Bytes} (h : (0 : UInt8) ∉ s) (rest : Bytes) :
    text (s ++ 0 :: rest) = s := by
  have hkept : ∀ c ∈ s, (c != 0) = true := fun c hc => bne_iff_ne.mpr fun hzero => h (hzero ▸ hc)
  rw [text, List.takeWhile_append_of_pos hkept, List.takeWhile_cons_of_neg (by decide),
    List.append_nil]

/-- A buffer with a NUL holds a string exactly when it starts with it and a NUL. -/
theorem text_eq_iff {s t : Bytes} (hs : (0 : UInt8) ∈ s) (ht : (0 : UInt8) ∉ t) :
    text s = t ↔ s.take (t.length + 1) = t ++ [0] := by
  constructor
  · rintro rfl
    obtain ⟨a, b, rfl, ha⟩ := List.eq_append_cons_of_mem hs
    rw [text_append_nul ha, List.take_length_add_append]
    rfl
  · intro h
    rw [← List.take_append_drop (t.length + 1) s, h, List.append_assoc, List.singleton_append,
      text_append_nul ht]

theorem CStr.codes_inj {n : ℕ} {a b : CStr n} : codes a.bytes = codes b.bytes ↔ a = b := by
  rw [CText.codes_inj, text_of_noNul a.noNul, text_of_noNul b.noNul]
  exact ⟨CStr.ext, fun h => h ▸ rfl⟩

theorem CStr.strcmp_eq_zero_iff {n : ℕ} {a b : CStr n} : strcmp a.bytes b.bytes = 0 ↔ a = b := by
  rw [(strcmp_sign _ _).2, CStr.codes_inj]

/-! ### Decimal numbers -/

def isDigit (c : UInt8) : Bool := 48 ≤ c.toNat && c.toNat ≤ 57

def isSpace (c : UInt8) : Bool := c = 32 || 9 ≤ c.toNat && c.toNat ≤ 13

/-- The decimal digits of a number. -/
def natDec (n : ℕ) : Bytes :=
  if n < 10 then [UInt8.ofNat (48 + n)] else natDec (n / 10) ++ [UInt8.ofNat (48 + n % 10)]

/-- What `%d` prints. -/
def printD (v : ℤ) : Bytes := if v < 0 then 45 :: natDec v.natAbs else natDec v.natAbs

/-- The number that digits stand for. -/
def digitsVal (s : Bytes) : ℕ := s.foldl (fun v c => v * 10 + (c.toNat - 48)) 0

/-- The sign in front of a number, and what follows it. -/
def scanSign : Bytes → Bool × Bytes
  | 45 :: s => (true, s)
  | 43 :: s => (false, s)
  | s => (false, s)

/-- What `sscanf(s, "%d", ..)` reads: nothing where no number starts. -/
def scanD (s : Bytes) : Option ℤ :=
  let r := scanSign (s.dropWhile isSpace)
  let ds := r.2.takeWhile isDigit
  if ds = [] then none else some (if r.1 then -(digitsVal ds : ℤ) else digitsVal ds)

/-- `sscanf(p, "%d", &data)` and the value of `data` then; a number that is no `int` has no
defined outcome. -/
def scanData (data : BitVec 32) (p : Bytes) : Option (BitVec 32) :=
  match scanD p with
  | none => some data
  | some v => if -2 ^ 31 ≤ v ∧ v < 2 ^ 31 then some (BitVec.ofInt 32 v) else none

/-- What `sscanf(s, "%lu", ..)` reads: a number too large is the largest one, a minus takes
the number from 2^64. -/
def scanLu (s : Bytes) : Option ℕ :=
  let r := scanSign (s.dropWhile isSpace)
  let ds := r.2.takeWhile isDigit
  if ds = [] then none
  else if 18446744073709551615 < digitsVal ds then some 18446744073709551615
  else some (if r.1 then (18446744073709551616 - digitsVal ds) % 18446744073709551616
    else digitsVal ds)

theorem digit_toNat {n : ℕ} (h : n < 10) : (UInt8.ofNat (48 + n)).toNat = 48 + n := by
  rw [UInt8.toNat_ofNat', Nat.mod_eq_of_lt (by omega)]

theorem natDec_spec (n : ℕ) :
    natDec n ≠ [] ∧ (∀ c ∈ natDec n, isDigit c = true) ∧ digitsVal (natDec n) = n := by
  fun_induction natDec n with
  | case1 n h =>
    simp [isDigit, digitsVal]
    omega
  | case2 n h ih =>
    obtain ⟨_, hdigits, hval⟩ := ih
    have hd := digit_toNat (Nat.mod_lt n (show 0 < 10 by omega))
    refine ⟨by simp, ?_, ?_⟩
    · intro c hc
      rcases List.mem_append.mp hc with hc | hc
      · exact hdigits c hc
      · rw [List.mem_singleton.mp hc, isDigit, hd]
        simp
        omega
    · rw [digitsVal, List.foldl_append]
      simp only [List.foldl_cons, List.foldl_nil, hd]
      rw [digitsVal] at hval
      rw [hval]
      omega

/-- A digit starts a number and is neither a sign nor a blank. -/
theorem isDigit_cases {c : UInt8} (h : isDigit c = true) : isSpace c = false ∧ c ≠ 45 ∧ c ≠ 43 := by
  have hbounds : 48 ≤ c.toNat ∧ c.toNat ≤ 57 := by simpa [isDigit] using h
  refine ⟨?_, ?_, ?_⟩
  · have hne : c ≠ 32 := by
      rintro rfl
      simp at hbounds
    simp [isSpace, hne]
    omega
  · rintro rfl
    simp at hbounds
  · rintro rfl
    simp at hbounds

/-- Digits have neither a blank nor a sign in front. -/
theorem scanSign_digits {ds : Bytes} (hne : ds ≠ []) (hds : ∀ c ∈ ds, isDigit c = true)
    (rest : Bytes) : (ds ++ rest).dropWhile isSpace = ds ++ rest ∧
      scanSign (ds ++ rest) = (false, ds ++ rest) := by
  obtain ⟨d, tail, rfl⟩ := List.exists_cons_of_ne_nil hne
  obtain ⟨hspace, hminus, hplus⟩ := isDigit_cases (hds d (List.mem_cons_self ..))
  constructor
  · rw [List.cons_append, List.dropWhile_cons_of_neg]
    simpa using hspace
  · rw [List.cons_append, scanSign]
    · simp [hminus]
    · simp [hplus]

/-- Digits are taken up to what follows them. -/
theorem takeWhile_digits {ds : Bytes} (hds : ∀ c ∈ ds, isDigit c = true) {c : UInt8}
    (hc : isDigit c = false) (rest : Bytes) :
    (ds ++ c :: rest).takeWhile isDigit = ds ∧ (ds ++ c :: rest).dropWhile isDigit = c :: rest := by
  have hstop : ¬ isDigit c = true := ne_true_of_eq_false hc
  constructor
  · rw [List.takeWhile_append_of_pos hds, List.takeWhile_cons_of_neg hstop, List.append_nil]
  · rw [List.dropWhile_append_of_pos hds, List.dropWhile_cons_of_neg hstop]

/-- What is printed is scanned back. -/
theorem scanD_printD (v : ℤ) : scanD (printD v) = some v := by
  obtain ⟨hne, hdigits, hval⟩ := natDec_spec v.natAbs
  have htake : (natDec v.natAbs).takeWhile isDigit = natDec v.natAbs :=
    List.takeWhile_eq_self_iff.mpr hdigits
  by_cases hv : v < 0
  · have hdrop : (45 :: natDec v.natAbs).dropWhile isSpace = 45 :: natDec v.natAbs := by
      rw [List.dropWhile_cons_of_neg (by decide)]
    simp only [scanD, printD, if_pos hv, hdrop, scanSign, htake, if_neg hne, hval, if_true]
    congr 1
    omega
  · obtain ⟨hdrop, hsign⟩ := scanSign_digits hne hdigits []
    rw [List.append_nil] at hdrop hsign
    simp only [scanD, printD, if_neg hv, hdrop, hsign, htake, if_neg hne, hval]
    simp
    omega

/-- A number that is followed by a NUL. -/
theorem scanLu_natDec {n : ℕ} (h : n < 18446744073709551616) (rest : Bytes) :
    scanLu (natDec n ++ 0 :: rest) = some n := by
  obtain ⟨hne, hdigits, hval⟩ := natDec_spec n
  obtain ⟨hdrop, hsign⟩ := scanSign_digits hne hdigits (0 :: rest)
  have htake := (takeWhile_digits hdigits (by decide : isDigit 0 = false) rest).1
  unfold scanLu
  simp only [hdrop, hsign, htake, hval, if_neg hne]
  rw [if_neg (by omega)]
  rfl

theorem natDec_length_le {n m : ℕ} (h : n < 10 ^ (m + 1)) : (natDec n).length ≤ m + 1 := by
  induction m generalizing n with
  | zero =>
    rw [natDec, if_pos (by omega)]
    exact le_rfl
  | succ m ih =>
    rw [natDec]
    by_cases hn : n < 10
    · rw [if_pos hn, List.length_singleton]
      omega
    · rw [if_neg hn, List.length_append, List.length_singleton]
      have := ih (n := n / 10) (by rw [Nat.pow_succ] at h; omega)
      omega

theorem lt_natDec_length {n m : ℕ} (h : 10 ^ m ≤ n) : m < (natDec n).length := by
  induction m generalizing n with
  | zero => exact List.length_pos_iff.mpr (natDec_spec n).1
  | succ m ih =>
    rw [Nat.pow_succ] at h
    have hone : 1 ≤ 10 ^ m := Nat.one_le_pow m 10 (Nat.succ_pos 9)
    rw [natDec, if_neg (by omega), List.length_append, List.length_singleton]
    have := ih (n := n / 10) (by omega)
    omega

theorem scanData_toInt {p : Bytes} {v : BitVec 32} (h : scanD p = some v.toInt) (data : BitVec 32) :
    scanData data p = some v := by
  have hle := BitVec.le_toInt v
  have hlt := BitVec.toInt_lt (x := v)
  simp only [scanData, h]
  rw [if_pos ⟨by omega, by omega⟩, BitVec.ofInt_toInt]

/-! ### Tokens -/

section Tokens

variable (delim : UInt8 → Bool)

/-- The tokens of the rest of a text, the current one begun with `cur`. -/
def tokensFrom (cur : Bytes) : Bytes → List Bytes
  | [] => if cur = [] then [] else [cur]
  | c :: s =>
    if delim c then if cur = [] then tokensFrom [] s else cur :: tokensFrom [] s
    else tokensFrom (cur ++ [c]) s

/-- The results of `strtok(s, delim)` and then `strtok(0, delim)` up to the null one. -/
def strtoks (s : Bytes) : List Bytes := tokensFrom delim [] (text s)

variable {delim}

/-- A delimiter parts a text: the tokens are those on the two sides. -/
theorem tokensFrom_append {d : UInt8} (hd : delim d = true) (cur a s : Bytes) :
    tokensFrom delim cur (a ++ d :: s) = tokensFrom delim cur a ++ tokensFrom delim [] s := by
  induction a generalizing cur with
  | nil =>
    rw [List.nil_append, tokensFrom, tokensFrom, if_pos hd]
    split_ifs <;> rfl
  | cons c a ih =>
    rw [List.cons_append, tokensFrom, tokensFrom]
    split_ifs
    · exact ih []
    · rw [ih, List.cons_append]
    · exact ih _

/-- A text without delimiters is a token, or empty. -/
theorem tokensFrom_word {t : Bytes} (ht : ∀ c ∈ t, delim c = false) (cur : Bytes) :
    tokensFrom delim cur t = if cur ++ t = [] then [] else [cur ++ t] := by
  induction t generalizing cur with
  | nil => rw [tokensFrom, List.append_nil]
  | cons c t ih =>
    rw [tokensFrom, if_neg (by rw [ht c List.mem_cons_self]; exact Bool.false_ne_true),
      ih fun x hx => ht x (List.mem_cons_of_mem c hx), List.append_assoc, List.singleton_append]

theorem tokensFrom_intercalate_flatMap {d : UInt8} (hd : delim d = true) (ts : List Bytes) :
    tokensFrom delim [] ([d].intercalate ts) = ts.flatMap (tokensFrom delim []) := by
  induction ts with
  | nil => rfl
  | cons t ts ih =>
    cases ts with
    | nil => simp
    | cons u us =>
      rw [List.intercalate_cons_cons, List.append_assoc, List.singleton_append,
        tokensFrom_append hd, ih]
      rfl

/-- The tokens are what is left without the delimiters, and none is empty. -/
theorem tokensFrom_flatten (cur s : Bytes) :
    (tokensFrom delim cur s).flatten = cur ++ s.filter (fun c => !delim c) := by
  induction s generalizing cur with
  | nil =>
    rw [tokensFrom, List.filter_nil, List.append_nil]
    split_ifs with h
    · rw [h, List.flatten_nil]
    · exact List.flatten_singleton
  | cons c s ih =>
    rw [tokensFrom]
    cases hc : delim c with
    | true =>
      rw [if_pos rfl, List.filter_cons_of_neg (by rw [hc]; exact Bool.false_ne_true)]
      split_ifs with h
      · rw [ih, h]
      · rw [List.flatten_cons, ih, List.nil_append]
    | false =>
      rw [if_neg Bool.false_ne_true, ih, List.filter_cons_of_pos (by rw [hc]; rfl),
        List.append_assoc, List.singleton_append]

theorem tokensFrom_ne_nil {cur s t : Bytes} (ht : t ∈ tokensFrom delim cur s) : t ≠ [] := by
  induction s generalizing cur with
  | nil =>
    rw [tokensFrom] at ht
    split_ifs at ht with h
    · cases ht
    · exact List.mem_singleton.mp ht ▸ h
  | cons c s ih =>
    rw [tokensFrom] at ht
    split_ifs at ht with hc h
    · exact ih ht
    · rcases List.mem_cons.mp ht with rfl | ht
      · exact h
      · exact ih ht
    · exact ih ht

theorem strtoks_flatten {s : Bytes} (hs : (0 : UInt8) ∉ s) :
    (strtoks delim s).flatten = s.filter (fun c => !delim c) := by
  rw [strtoks, text_of_noNul hs, tokensFrom_flatten, List.nil_append]

variable (delim) in
/-- The strings that `strtok` leaves in the rest of a buffer, the current one begun with
`cur`: each with the bytes behind its NUL. -/
def stringsFrom (cur : Bytes) : Bytes → List (Bytes × Bytes)
  | [] => if cur = [] then [] else [(cur, [])]
  | c :: s =>
    if c = 0 then if cur = [] then [] else [(cur, s)]
    else if delim c then if cur = [] then stringsFrom [] s else (cur, s) :: stringsFrom [] s
    else stringsFrom (cur ++ [c]) s

theorem stringsFrom_fst {s : Bytes} (hs : (0 : UInt8) ∉ s) (cur z : Bytes) :
    (stringsFrom delim cur (s ++ 0 :: z)).map Prod.fst = tokensFrom delim cur s := by
  induction s generalizing cur with
  | nil =>
    rw [List.nil_append, stringsFrom, if_pos rfl, tokensFrom]
    split_ifs <;> rfl
  | cons c s ih =>
    have hc : c ≠ 0 := fun h => hs (h ▸ List.mem_cons_self)
    have hrest := ih fun h => hs (List.mem_cons_of_mem c h)
    rw [List.cons_append, stringsFrom, if_neg hc, tokensFrom]
    split_ifs
    · exact hrest []
    · rw [List.map_cons, hrest]
    · exact hrest _

theorem stringsFrom_snd (cur s z : Bytes) {q : Bytes × Bytes}
    (hq : q ∈ stringsFrom delim cur (s ++ 0 :: z)) : z.length ≤ q.2.length := by
  induction s generalizing cur with
  | nil =>
    rw [List.nil_append, stringsFrom, if_pos rfl] at hq
    split_ifs at hq
    · cases hq
    · rw [List.mem_singleton.mp hq]
  | cons c s ih =>
    have hbehind : z.length ≤ (s ++ 0 :: z).length := by
      rw [List.length_append, List.length_cons]
      omega
    rw [List.cons_append, stringsFrom] at hq
    split_ifs at hq
    · cases hq
    · rw [List.mem_singleton.mp hq]
      exact hbehind
    · exact ih [] hq
    · rcases List.mem_cons.mp hq with rfl | hq
      · exact hbehind
      · exact ih [] hq
    · exact ih _ hq

/-- A string that `strtok` finds whole: not empty, without delimiters or NUL. -/
def IsToken (delim : UInt8 → Bool) (t : Bytes) : Prop :=
  t ≠ [] ∧ ∀ c ∈ t, delim c = false ∧ c ≠ 0

/-- What `strtok` finds is whole. -/
theorem strtoks_isToken {s t : Bytes} (ht : t ∈ strtoks delim s) : IsToken delim t := by
  refine ⟨tokensFrom_ne_nil ht, fun c hc => ?_⟩
  have hmem : c ∈ (strtoks delim s).flatten := List.mem_flatten.mpr ⟨t, ht, hc⟩
  rw [strtoks, tokensFrom_flatten, List.nil_append, List.mem_filter] at hmem
  obtain ⟨htext, hdelim⟩ := hmem
  have hne := List.mem_takeWhile_imp htext
  exact ⟨by simpa using hdelim, by simpa using hne⟩

/-- Tokens with one delimiter between them and one behind the last are found again. -/
theorem tokensFrom_intercalate {ts : List Bytes} (hts : ∀ t ∈ ts, IsToken delim t)
    {d e : UInt8} (hd : delim d = true) (he : delim e = true) (s : Bytes) :
    tokensFrom delim [] ([d].intercalate ts ++ e :: s) = ts ++ tokensFrom delim [] s := by
  have hword : ∀ t ∈ ts, tokensFrom delim [] t = [t] := by
    intro t ht
    obtain ⟨hne, hchars⟩ := hts t ht
    rw [tokensFrom_word (fun c hc => (hchars c hc).1), List.nil_append, if_neg hne]
  rw [tokensFrom_append he, tokensFrom_intercalate_flatMap hd, List.flatMap_congr hword,
    List.flatMap_singleton']

theorem notMem_intercalate {c d : UInt8} {ts : List Bytes} (hd : c ≠ d) (hts : ∀ t ∈ ts, c ∉ t) :
    c ∉ [d].intercalate ts := by
  induction ts with
  | nil => simp
  | cons t ts ih =>
    have ht := hts t (by simp)
    have hrest := ih fun u hu => hts u (by simp [hu])
    cases ts with
    | nil => simpa using ht
    | cons u us =>
      rw [List.intercalate_cons_cons]
      simp [hd, ht, hrest]

/-- The tokens of lines. -/
theorem strtoks_lines {ls : List (List Bytes)} (hls : ∀ ts ∈ ls, ∀ t ∈ ts, IsToken delim t)
    {d e : UInt8} (hd : delim d = true) (he : delim e = true) (hd0 : d ≠ 0) (he0 : e ≠ 0) :
    strtoks delim (ls.flatMap fun ts => [d].intercalate ts ++ [e]) = ls.flatten := by
  have hnul : (0 : UInt8) ∉ ls.flatMap fun ts => [d].intercalate ts ++ [e] := by
    intro h
    obtain ⟨ts, hts, h⟩ := List.mem_flatMap.mp h
    have hfields : (0 : UInt8) ∉ [d].intercalate ts :=
      notMem_intercalate hd0.symm fun t ht h0 => ((hls ts hts t ht).2 0 h0).2 rfl
    rcases List.mem_append.mp h with h | h
    · exact hfields h
    · exact he0 (List.mem_singleton.mp h).symm
  rw [strtoks, text_of_noNul hnul]
  clear hnul
  induction ls with
  | nil => rfl
  | cons ts ls ih =>
    have hts := hls ts List.mem_cons_self
    rw [List.flatMap_cons, List.append_assoc, List.singleton_append,
      tokensFrom_intercalate hts hd he, ih fun us hus => hls us (by simp [hus]), List.flatten_cons]

/-- Tokens with a delimiter between them. -/
theorem strtoks_intercalate {ts : List Bytes} (hts : ∀ t ∈ ts, IsToken delim t) {d : UInt8}
    (hd : delim d = true) (hd0 : d ≠ 0) : strtoks delim ([d].intercalate ts) = ts := by
  have hnul : (0 : UInt8) ∉ [d].intercalate ts :=
    notMem_intercalate hd0.symm fun t ht h0 => ((hts t ht).2 0 h0).2 rfl
  have hword : ∀ t ∈ ts, tokensFrom delim [] t = [t] := by
    intro t ht
    obtain ⟨hne, hchars⟩ := hts t ht
    rw [tokensFrom_word (fun c hc => (hchars c hc).1), List.nil_append, if_neg hne]
  rw [strtoks, text_of_noNul hnul, tokensFrom_intercalate_flatMap hd, List.flatMap_congr hword,
    List.flatMap_singleton']

/-- Columns with a delimiter behind each: the empty ones are not found. -/
theorem tokensFrom_columns {ts : List Bytes} (hts : ∀ t ∈ ts, ∀ c ∈ t, delim c = false) {d : UInt8}
    (hd : delim d = true) (s : Bytes) :
    tokensFrom delim [] (ts.flatMap (· ++ [d]) ++ s) =
      ts.filter (fun t => !t.isEmpty) ++ tokensFrom delim [] s := by
  induction ts with
  | nil => rfl
  | cons t ts ih =>
    have hrest := ih fun u hu => hts u (List.mem_cons_of_mem t hu)
    rw [List.flatMap_cons, List.append_assoc, List.append_assoc, List.singleton_append,
      tokensFrom_append hd, tokensFrom_word (hts t List.mem_cons_self), hrest]
    cases t <;> rfl

/-- A printed number is a token where digits and the sign are no delimiters. -/
theorem printD_isToken (hdigit : ∀ c, isDigit c = true → delim c = false)
    (hminus : delim 45 = false) (v : ℤ) : IsToken delim (printD v) := by
  obtain ⟨hne, hdigits, _⟩ := natDec_spec v.natAbs
  have hchars : ∀ c ∈ natDec v.natAbs, delim c = false ∧ c ≠ 0 := by
    intro c hc
    refine ⟨hdigit c (hdigits c hc), ?_⟩
    rintro rfl
    exact absurd (hdigits 0 hc) (by decide)
  unfold printD
  split_ifs
  · refine ⟨by simp, fun c hc => ?_⟩
    rcases List.mem_cons.mp hc with rfl | hc
    · exact ⟨hminus, by decide⟩
    · exact hchars c hc
  · exact ⟨hne, hchars⟩

end Tokens

/-! ### Substrings -/

/-- Whether `strstr(s, base)` finds something. -/
def strstr (s base : Bytes) : Bool := decide (base <:+: s)

/-- No end of `p` goes on as `base` or holds it. -/
def Apart (base p : Bytes) : Prop :=
  ∀ i < p.length, ¬ p.drop i <+: base ∧ ¬ base <+: p.drop i

instance (base p : Bytes) : Decidable (Apart base p) :=
  inferInstanceAs (Decidable (∀ i < p.length, _ ∧ _))

/-- A string apart from what stands in front of a text is found in the text alone. -/
theorem infix_append_iff {base p : Bytes} (h : Apart base p) (v : Bytes) :
    base <:+: p ++ v ↔ base <:+: v := by
  induction p with
  | nil => rw [List.nil_append]
  | cons c p ih =>
    have hrest : Apart base p := fun i hi => h (i + 1) (Nat.succ_lt_succ hi)
    obtain ⟨hover, hin⟩ := h 0 (Nat.succ_pos _)
    rw [List.cons_append, List.infix_cons_iff, ih hrest, or_iff_right]
    intro hpre
    rcases List.prefix_or_prefix_of_prefix hpre (List.prefix_append (c :: p) v) with h1 | h1
    · exact hin h1
    · exact hover h1

/-- A string without the byte `d` stands on one side of it. -/
theorem infix_append_cons {base : Bytes} {d : UInt8} (hd : d ∉ base) {a s : Bytes}
    (h : base <:+: a ++ d :: s) : base <:+: a ∨ base <:+: s := by
  have hpre : ∀ b : Bytes, base <+: b ++ d :: s → base <+: b := by
    intro b hb
    rcases List.prefix_or_prefix_of_prefix hb (List.prefix_append b (d :: s)) with h1 | ⟨t, rfl⟩
    · exact h1
    · rw [List.prefix_append_right_inj] at hb
      cases t with
      | nil => exact ⟨[], by simp⟩
      | cons x t =>
        have hx : x = d := (List.cons_prefix_cons.mp hb).1
        exact absurd (hx ▸ List.mem_append_right b List.mem_cons_self) hd
  induction a with
  | nil =>
    rw [List.nil_append, List.infix_cons_iff] at h
    rcases h with h | h
    · exact Or.inl (hpre [] h).isInfix
    · exact Or.inr h
  | cons c a ih =>
    rw [List.cons_append, List.infix_cons_iff] at h
    rcases h with h | h
    · exact Or.inl (hpre (c :: a) h).isInfix
    · rcases ih h with h1 | h1
      · exact Or.inl (List.infix_cons h1)
      · exact Or.inr h1

theorem infix_intercalate {base : Bytes} {d : UInt8} (hd : d ∉ base) (hne : base ≠ [])
    {ts : List Bytes} (h : base <:+: [d].intercalate ts) : ∃ t ∈ ts, base <:+: t := by
  induction ts with
  | nil => exact absurd (List.infix_nil.mp h) hne
  | cons t ts ih =>
    cases ts with
    | nil => exact ⟨t, List.mem_cons_self, by simpa using h⟩
    | cons u us =>
      rw [List.intercalate_cons_cons, List.append_assoc, List.singleton_append] at h
      rcases infix_append_cons hd h with h | h
      · exact ⟨t, List.mem_cons_self, h⟩
      · obtain ⟨v, hv, h⟩ := ih h
        exact ⟨v, List.mem_cons_of_mem t hv, h⟩

/-! ### strtok_r and strcasecmp -/

section Words

variable (delim : UInt8 → Bool)

/-- One call of `strtok_r` on a text: the token, and the text `save_ptr` is left at. -/
def strtokR (s : Bytes) : Option (Bytes × Bytes) :=
  let s := s.dropWhile delim
  if s = [] then none
  else some (s.takeWhile fun c => !delim c, (s.dropWhile fun c => !delim c).tail)

variable {delim}

theorem tokensFrom_dropWhile (s : Bytes) :
    tokensFrom delim [] (s.dropWhile delim) = tokensFrom delim [] s := by
  induction s with
  | nil => rfl
  | cons c s ih =>
    by_cases hc : delim c = true
    · rw [List.dropWhile_cons_of_pos hc, ih, tokensFrom, if_pos hc, if_pos rfl]
    · rw [List.dropWhile_cons_of_neg hc]

/-- Calling it again and again gives the tokens. -/
theorem tokensFrom_strtokR (s : Bytes) : tokensFrom delim [] s =
    match strtokR delim s with
    | none => []
    | some (t, rest) => t :: tokensFrom delim [] rest := by
  rw [← tokensFrom_dropWhile, strtokR]
  by_cases hnil : s.dropWhile delim = []
  · simp [hnil, tokensFrom]
  · simp only [if_neg hnil]
    obtain ⟨c, u, hcu⟩ := List.exists_cons_of_ne_nil hnil
    have hhead : delim c = false := by
      have hnot := List.head_dropWhile_not delim hnil
      simpa [hcu] using hnot
    rw [hcu]
    have hword : ∀ x ∈ (c :: u).takeWhile (fun c => !delim c), delim x = false := by
      intro x hx
      simpa using List.mem_takeWhile_imp hx
    have hne : (c :: u).takeWhile (fun c => !delim c) ≠ [] := by
      simp [hhead]
    have hstop : ∀ h : (c :: u).dropWhile (fun c => !delim c) ≠ [],
        delim (((c :: u).dropWhile fun c => !delim c).head h) = true := by
      intro h
      simpa using List.head_dropWhile_not (fun c => !delim c) h
    have hall := List.takeWhile_append_dropWhile (p := fun c => !delim c) (l := c :: u)
    generalize (c :: u).takeWhile (fun c => !delim c) = t at hword hne hall ⊢
    generalize (c :: u).dropWhile (fun c => !delim c) = r at hstop hall ⊢
    rw [← hall]
    cases r with
    | nil =>
      rw [List.append_nil, tokensFrom_word hword, List.nil_append, if_neg hne]
      rfl
    | cons d rest =>
      have hd : delim d = true := hstop (List.cons_ne_nil d rest)
      rw [tokensFrom_append hd, tokensFrom_word hword, List.nil_append, if_neg hne]
      rfl

end Words

/-- The bytes of a string literal. -/
def ascii (s : String) : Bytes := s.toList.map fun c => UInt8.ofNat c.toNat

/-- `tolower` in the C locale. -/
def toLower (c : UInt8) : UInt8 := if 65 ≤ c.toNat ∧ c.toNat ≤ 90 then c + 32 else c

/-- A text in lower case. -/
def lowered (s : Bytes) : Bytes := (text s).map toLower

/-- `!strcasecmp(a, b)`. -/
def strcaseEq (a b : Bytes) : Bool := lowered a == lowered b

end MemoryLeak.CText
