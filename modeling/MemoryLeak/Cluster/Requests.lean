import MemoryLeak.Cluster.FrameRecv

/-!
# Requests to the warehouse server

The text that `lcs_odbc_send_request` builds, and what `lcs_whs_recv_request` and
`lcs_whs_gen_request` make of a text in a process that has not handled one before.
-/
namespace MemoryLeak.Cluster
open MemoryLeak.CBytes MemoryLeak.CText MemoryLeak.Loops

/-- `LCS_WHS_REQUEST_DATA`, its strings terminated. -/
structure LcsWhsRequestData where
  dbserver : CStr 32
  dbname : CStr 64
  datefrom : CStr 32
  dateto : CStr 32
  analysis : CStr 32
  mode : CStr 16

/-- An empty string. -/
def emptyStr {n : ℕ} (hn : 0 < n) : CStr n := ⟨[], hn, List.not_mem_nil⟩

/-- `lcs_request_data` before a request. -/
def zeroRequest : LcsWhsRequestData :=
  ⟨emptyStr (Nat.succ_pos 31), emptyStr (Nat.succ_pos 63), emptyStr (Nat.succ_pos 31),
    emptyStr (Nat.succ_pos 31), emptyStr (Nat.succ_pos 31), emptyStr (Nat.succ_pos 15)⟩

/-- `LCS_WHS_REQUEST`. -/
def lcsWhsRequest : Bytes := [82, 69, 81, 85, 69, 83, 84]

/-- The six fields, in the order of the request. -/
def LcsWhsRequestData.fields (p : LcsWhsRequestData) : List Bytes :=
  [p.dbserver.bytes, p.dbname.bytes, p.datefrom.bytes, p.dateto.bytes, p.analysis.bytes,
    p.mode.bytes]

/-- `"%s:%s\t%s\t%s\t%s\t%s\t%s"`. -/
def requestText (p : LcsWhsRequestData) : Bytes := lcsWhsRequest ++ 58 :: [9].intercalate p.fields

/-! ### The parser -/

/-- Where a request leads outside of the defined behaviour: the address behind a missing `:` is
read, or a copy ends behind its entry of 128 bytes or behind its field. -/
inductive RequestFault where
  | missingSeparator
  | pastEntry
  | pastField
  deriving DecidableEq

/-- What the loop copies to `arr`, one entry after the other, as long as entries are left. The
next tab is searched from the second byte, and nothing is copied of a last single byte. -/
def requestTokens : ℕ → Bytes → List Bytes
  | 0, _ => []
  | _ + 1, [] => []
  | _ + 1, [_] => []
  | n + 1, x :: s =>
    if (9 : UInt8) ∈ s then
      (x :: s.takeWhile (· ≠ 9)) :: requestTokens n ((s.dropWhile (· ≠ 9)).drop 1)
    else [x :: s]

/-- `strcat` to a field. -/
def strcatRequest {n : ℕ} (s : CStr n) (p : Bytes) : Except RequestFault (CStr n) :=
  if h : (s.bytes ++ p).length < n ∧ (0 : UInt8) ∉ s.bytes ++ p then .ok ⟨s.bytes ++ p, h.1, h.2⟩
  else .error .pastField

def lcsWhsGenRequest (request : Bytes) (p : LcsWhsRequestData) :
    Except RequestFault LcsWhsRequestData := do
  let arr := requestTokens 32 request
  if ∃ t ∈ arr, 128 < t.length then .error .pastEntry
  else
    let dbserver ← strcatRequest p.dbserver (arr.getD 0 [])
    let dbname ← strcatRequest p.dbname (arr.getD 1 [])
    let datefrom ← strcatRequest p.datefrom (arr.getD 2 [])
    let dateto ← strcatRequest p.dateto (arr.getD 3 [])
    let analysis ← strcatRequest p.analysis (arr.getD 4 [])
    let mode ← strcatRequest p.mode (arr.getD 5 [])
    .ok ⟨dbserver, dbname, datefrom, dateto, analysis, mode⟩

/-- The request, and whether `*err` is set; `data` is what `lcs_3des_recv` leaves. -/
def lcsWhsRecvRequest (data : Option Bytes) (p : LcsWhsRequestData) :
    Except RequestFault (LcsWhsRequestData × Bool) :=
  match data with
  | none => .ok (p, false)
  | some data =>
    if strstr data lcsWhsRequest then
      match data.dropWhile (· ≠ 58) with
      -- `++p` makes the null pointer one that is not null
      | [] => .error .missingSeparator
      | _ :: request => do
        let p ← lcsWhsGenRequest request p
        .ok (p, false)
    else .ok (p, true)

/-! ### The fields of a text -/

theorem requestTokens_cons (n : ℕ) (x : UInt8) {s : Bytes} (hs : s ≠ []) :
    requestTokens (n + 1) (x :: s) =
      if (9 : UInt8) ∈ s then
        (x :: s.takeWhile (· ≠ 9)) :: requestTokens n ((s.dropWhile (· ≠ 9)).drop 1)
      else [x :: s] := by
  cases s with
  | nil => exact absurd rfl hs
  | cons y s =>
    rw [requestTokens]
    exact hs

/-- A field that is not empty is found up to its tab. -/
theorem requestTokens_field (n : ℕ) {f : Bytes} (hne : f ≠ []) (htab : (9 : UInt8) ∉ f)
    (rest : Bytes) : requestTokens (n + 1) (f ++ 9 :: rest) = f :: requestTokens n rest := by
  cases f with
  | nil => exact absurd rfl hne
  | cons x f =>
    have hf : ∀ c ∈ f, decide (c ≠ 9) = true := fun c hc =>
      decide_eq_true fun h => htab (h ▸ List.mem_cons_of_mem x hc)
    rw [List.cons_append, requestTokens_cons n x (by simp), if_pos (by simp),
      List.takeWhile_append_of_pos hf, List.dropWhile_append_of_pos hf]
    simp

/-- The last field is found where it has two bytes at least. -/
theorem requestTokens_last (n : ℕ) {f : Bytes} (htab : (9 : UInt8) ∉ f) :
    requestTokens (n + 1) f = if f.length ≤ 1 then [] else [f] := by
  match f with
  | [] => rfl
  | [x] => rfl
  | x :: y :: f =>
    rw [requestTokens_cons n x (List.cons_ne_nil y f), if_neg fun h =>
      htab (List.mem_cons_of_mem x h), if_neg (by simp)]

/-- Behind an empty field a tab is taken for the start of the next one. -/
theorem requestTokens_empty (n : ℕ) {rest : Bytes} (hne : rest ≠ []) :
    (requestTokens (n + 1) (9 :: rest)).getD 0 [] ≠ [] := by
  rw [requestTokens_cons n 9 hne]
  split_ifs <;> simp

theorem intercalate_eq_nil {g : Bytes} {fs : List Bytes} (h : [9].intercalate (g :: fs) = []) :
    g = [] ∧ fs = [] := by
  cases fs with
  | nil => exact ⟨by simpa using h, rfl⟩
  | cons f fs => simp [List.intercalate_cons_cons] at h

/-- The fields that are read as they were written. -/
def Kept : List Bytes → Prop
  | [] => True
  | [f] => f.length ≠ 1
  | f :: g :: fs => (f ≠ [] ∧ Kept (g :: fs)) ∨ (f = [] ∧ g = [] ∧ fs = [])

/-- Kept fields are the entries; the empty ones at the end are not filled. -/
theorem requestTokens_of_kept {fs : List Bytes} (htab : ∀ f ∈ fs, (9 : UInt8) ∉ f)
    (hkept : Kept fs) {n : ℕ} (hn : fs.length ≤ n) :
    ∃ k, requestTokens n ([9].intercalate fs) ++ List.replicate k [] = fs := by
  induction fs generalizing n with
  | nil =>
    refine ⟨0, ?_⟩
    cases n <;> rfl
  | cons f fs ih =>
    obtain ⟨n, rfl⟩ : ∃ m, n = m + 1 := ⟨n - 1, by rw [List.length_cons] at hn; omega⟩
    rw [List.forall_mem_cons] at htab
    cases fs with
    | nil =>
      rw [show [9].intercalate [f] = f by simp, requestTokens_last n htab.1]
      split_ifs with hlen
      · have hone : f.length ≠ 1 := hkept
        have hnil : f = [] := List.length_eq_zero_iff.mp (by omega)
        exact ⟨1, by rw [hnil]; rfl⟩
      · exact ⟨0, rfl⟩
    | cons g fs =>
      rw [List.intercalate_cons_cons, List.append_assoc, List.singleton_append]
      rcases hkept with ⟨hf, hkept⟩ | ⟨rfl, rfl, rfl⟩
      · obtain ⟨k, hk⟩ := ih htab.2 hkept (by simpa using hn)
        exact ⟨k, by rw [requestTokens_field n hf htab.1, List.cons_append, hk]⟩
      · exact ⟨2, rfl⟩

/-- Fields that are found in their entries are kept. -/
theorem kept_of_requestTokens {fs : List Bytes} (htab : ∀ f ∈ fs, (9 : UInt8) ∉ f) {n : ℕ}
    (hn : fs.length ≤ n)
    (h : ∀ i < fs.length, (requestTokens n ([9].intercalate fs)).getD i [] = fs.getD i []) :
    Kept fs := by
  induction fs generalizing n with
  | nil => trivial
  | cons f fs ih =>
    obtain ⟨n, rfl⟩ : ∃ m, n = m + 1 := ⟨n - 1, by rw [List.length_cons] at hn; omega⟩
    rw [List.forall_mem_cons] at htab
    have hzero := h 0 (by simp)
    cases fs with
    | nil =>
      intro hone
      rw [show [9].intercalate [f] = f by simp, requestTokens_last n htab.1, if_pos hone.le]
        at hzero
      have hnil : [] = f := hzero
      rw [← hnil] at hone
      cases hone
    | cons g fs =>
      rw [List.intercalate_cons_cons, List.append_assoc, List.singleton_append] at h hzero
      by_cases hf : f = []
      · subst hf
        by_cases hrest : [9].intercalate (g :: fs) = []
        · exact Or.inr ⟨rfl, intercalate_eq_nil hrest⟩
        · exact absurd hzero (requestTokens_empty n hrest)
      · refine Or.inl ⟨hf, ih htab.2 (by simpa using hn) fun i hi => ?_⟩
        have hnext := h (i + 1) (by simpa using hi)
        rw [requestTokens_field n hf htab.1] at hnext
        exact hnext

/-! ### Any text -/

/-- A copy to an empty field ends well exactly when it leaves what is copied. -/
theorem strcatRequest_ok_iff {n : ℕ} {hn : 0 < n} {p : Bytes} {s : CStr n} :
    strcatRequest (emptyStr hn) p = .ok s ↔ p = s.bytes := by
  have hnil : (emptyStr hn).bytes ++ p = p := List.nil_append p
  constructor
  · intro h
    rw [strcatRequest] at h
    split_ifs at h with hfits
    rw [← Except.ok.inj h]
    exact hnil.symm
  · rintro rfl
    rw [strcatRequest, dif_pos (by rw [hnil]; exact ⟨s.lt, s.noNul⟩)]
    exact congrArg Except.ok (CStr.ext hnil)

/-- A request is taken into `q` exactly when no entry is too long and the first six are its
fields. -/
theorem lcsWhsGenRequest_ok_iff {request : Bytes} {q : LcsWhsRequestData} :
    lcsWhsGenRequest request zeroRequest = .ok q ↔
      (∀ t ∈ requestTokens 32 request, t.length ≤ 128) ∧
      (requestTokens 32 request).getD 0 [] = q.dbserver.bytes ∧
      (requestTokens 32 request).getD 1 [] = q.dbname.bytes ∧
      (requestTokens 32 request).getD 2 [] = q.datefrom.bytes ∧
      (requestTokens 32 request).getD 3 [] = q.dateto.bytes ∧
      (requestTokens 32 request).getD 4 [] = q.analysis.bytes ∧
      (requestTokens 32 request).getD 5 [] = q.mode.bytes := by
  rw [lcsWhsGenRequest]
  dsimp only [zeroRequest]
  split_ifs with hlong
  · refine iff_of_false (by simp) fun h => ?_
    obtain ⟨t, ht, hlen⟩ := hlong
    exact absurd (h.1 t ht) (by omega)
  · simp only [bind_eq_ok_iff, strcatRequest_ok_iff]
    constructor
    · rintro ⟨dbserver, h0, dbname, h1, datefrom, h2, dateto, h3, analysis, h4, mode, h5, hq⟩
      obtain rfl := Except.ok.inj hq
      exact ⟨fun t ht => not_lt.mp fun hlen => hlong ⟨t, ht, hlen⟩, h0, h1, h2, h3, h4, h5⟩
    · rintro ⟨-, h0, h1, h2, h3, h4, h5⟩
      exact ⟨_, h0, _, h1, _, h2, _, h3, _, h4, _, h5, rfl⟩

theorem requestTokens_subset (n : ℕ) (s : Bytes) : ∀ t ∈ requestTokens n s, t ⊆ s := by
  fun_induction requestTokens n s with
  | case1 => simp
  | case2 => simp
  | case3 => simp
  | case4 n x s hs htab ih =>
    intro t ht
    rcases List.mem_cons.mp ht with rfl | ht
    · exact List.cons_subset_cons x (List.takeWhile_subset _)
    · intro c hc
      exact List.mem_cons_of_mem x (List.dropWhile_subset _ (List.drop_subset 1 _ (ih t ht hc)))
  | case5 => simp

/-- A field as it is copied from an entry without a NUL. -/
theorem exists_field {n : ℕ} {p : Bytes} (hp : (0 : UInt8) ∉ p) :
    (∃ s : CStr n, p = s.bytes) ↔ p.length < n := by
  constructor
  · rintro ⟨s, rfl⟩
    exact s.lt
  · exact fun hlen => ⟨⟨p, hlen, hp⟩, rfl⟩

theorem getD_noNul {request : Bytes} (hnul : (0 : UInt8) ∉ request) (i : ℕ) :
    (0 : UInt8) ∉ (requestTokens 32 request).getD i [] := by
  intro h
  rw [List.getD_eq_getElem?_getD] at h
  cases hi : (requestTokens 32 request)[i]? with
  | none => simp [hi] at h
  | some t =>
    rw [hi, Option.getD_some] at h
    exact hnul (requestTokens_subset 32 request t (List.mem_of_getElem? hi) h)

/-- A request is taken exactly when no entry is too long and the first six fit their fields. -/
theorem exists_genRequest_iff {request : Bytes} (hnul : (0 : UInt8) ∉ request) :
    (∃ q, lcsWhsGenRequest request zeroRequest = .ok q) ↔
      (∀ t ∈ requestTokens 32 request, t.length ≤ 128) ∧
      ((requestTokens 32 request).getD 0 []).length < 32 ∧
      ((requestTokens 32 request).getD 1 []).length < 64 ∧
      ((requestTokens 32 request).getD 2 []).length < 32 ∧
      ((requestTokens 32 request).getD 3 []).length < 32 ∧
      ((requestTokens 32 request).getD 4 []).length < 32 ∧
      ((requestTokens 32 request).getD 5 []).length < 16 := by
  simp only [lcsWhsGenRequest_ok_iff]
  constructor
  · rintro ⟨q, hentries, h0, h1, h2, h3, h4, h5⟩
    rw [h0, h1, h2, h3, h4, h5]
    exact ⟨hentries, q.dbserver.lt, q.dbname.lt, q.datefrom.lt, q.dateto.lt, q.analysis.lt,
      q.mode.lt⟩
  · rintro ⟨hentries, h0, h1, h2, h3, h4, h5⟩
    obtain ⟨dbserver, hdbserver⟩ := (exists_field (getD_noNul hnul 0)).mpr h0
    obtain ⟨dbname, hdbname⟩ := (exists_field (getD_noNul hnul 1)).mpr h1
    obtain ⟨datefrom, hdatefrom⟩ := (exists_field (getD_noNul hnul 2)).mpr h2
    obtain ⟨dateto, hdateto⟩ := (exists_field (getD_noNul hnul 3)).mpr h3
    obtain ⟨analysis, hanalysis⟩ := (exists_field (getD_noNul hnul 4)).mpr h4
    obtain ⟨mode, hmode⟩ := (exists_field (getD_noNul hnul 5)).mpr h5
    exact ⟨⟨dbserver, dbname, datefrom, dateto, analysis, mode⟩, hentries, hdbserver, hdbname,
      hdatefrom, hdateto, hanalysis, hmode⟩

/-- A text is handled within the defined behaviour exactly when it is no request, or has a `:`
behind which no entry is too long and the first six fit their fields. -/
theorem request_safe_iff (data : Bytes) (hnul : (0 : UInt8) ∉ data) :
    (∃ r, lcsWhsRecvRequest (some data) zeroRequest = .ok r) ↔
      strstr data lcsWhsRequest = false ∨
      ∃ request, data.dropWhile (· ≠ 58) = 58 :: request ∧
        (∀ t ∈ requestTokens 32 request, t.length ≤ 128) ∧
        ((requestTokens 32 request).getD 0 []).length < 32 ∧
        ((requestTokens 32 request).getD 1 []).length < 64 ∧
        ((requestTokens 32 request).getD 2 []).length < 32 ∧
        ((requestTokens 32 request).getD 3 []).length < 32 ∧
        ((requestTokens 32 request).getD 4 []).length < 32 ∧
        ((requestTokens 32 request).getD 5 []).length < 16 := by
  rw [lcsWhsRecvRequest]
  cases hstr : strstr data lcsWhsRequest with
  | false => simp
  | true =>
    rw [if_pos rfl]
    simp only [Bool.true_eq_false, false_or]
    cases hdrop : data.dropWhile (· ≠ 58) with
    | nil => simp
    | cons x request =>
      have hx : x = 58 := by
        have hhead := List.head?_dropWhile_not (fun c : UInt8 => decide (c ≠ 58)) data
        rw [hdrop] at hhead
        simpa using hhead
      have hrequest : (0 : UInt8) ∉ request := fun h =>
        hnul (List.dropWhile_subset _ (hdrop ▸ List.mem_cons_of_mem x h))
      have hgen := exists_genRequest_iff hrequest
      simp only [hx, List.cons.injEq, true_and, exists_eq_left', ← hgen, bind_eq_ok_iff]
      constructor
      · rintro ⟨r, q, hq, -⟩
        exact ⟨q, hq⟩
      · rintro ⟨q, hq⟩
        exact ⟨(q, false), q, hq, rfl⟩

/-- The request of a day: `pbx1`, `cdr`, `20171030`, `20171031`, `A_000001`, `day`. -/
def dayRequest : LcsWhsRequestData :=
  ⟨⟨[112, 98, 120, 49], by decide, by decide⟩, ⟨[99, 100, 114], by decide, by decide⟩,
    ⟨[50, 48, 49, 55, 49, 48, 51, 48], by decide, by decide⟩,
    ⟨[50, 48, 49, 55, 49, 48, 51, 49], by decide, by decide⟩,
    ⟨[65, 95, 48, 48, 48, 48, 48, 49], by decide, by decide⟩,
    ⟨[100, 97, 121], by decide, by decide⟩⟩

/-- Its text reaches the parser and is taken. -/
theorem request_safe_iff_sample :
    strstr (requestText dayRequest) lcsWhsRequest = true ∧
      requestTokens 32 (((requestText dayRequest).dropWhile (· ≠ 58)).drop 1) = dayRequest.fields ∧
      ∃ r, lcsWhsRecvRequest (some (requestText dayRequest)) zeroRequest = .ok r := by
  have hfields : requestTokens 32 (((requestText dayRequest).dropWhile (· ≠ 58)).drop 1) =
      dayRequest.fields := by decide +kernel
  refine ⟨by decide +kernel, hfields, (request_safe_iff _ (by decide +kernel)).mpr (Or.inr ?_)⟩
  refine ⟨[9].intercalate dayRequest.fields, rfl, ?_⟩
  have hbehind : ((requestText dayRequest).dropWhile (· ≠ 58)).drop 1 =
      [9].intercalate dayRequest.fields := rfl
  rw [← hbehind, hfields]
  decide +kernel

/-- A request without a `:`, one with an entry of 129 bytes, one with a server of 32. -/
theorem request_leaves_bounds :
    (lcsWhsRecvRequest (some lcsWhsRequest) zeroRequest).map (fun _ => ()) =
      .error .missingSeparator ∧
    (lcsWhsRecvRequest (some (lcsWhsRequest ++ 58 :: List.replicate 129 97)) zeroRequest).map
      (fun _ => ()) = .error .pastEntry ∧
    (lcsWhsRecvRequest (some (lcsWhsRequest ++ 58 :: List.replicate 32 97)) zeroRequest).map
      (fun _ => ()) = .error .pastField := by
  decide +kernel

/-! ### Requests that come back -/

/-- The request of `lcs_odbc_send_request`, sent, received and parsed. -/
def serveRequest (c : Des) (behind : ℕ → Fin 507 → UInt8) (fuel : ℕ) (p : LcsWhsRequestData) :
    Option (Except RequestFault (LcsWhsRequestData × Bool)) :=
  (lcs3desRecv c true (delivered c (requestText p ++ [0])) behind true fuel).map fun r =>
    lcsWhsRecvRequest r.1.data zeroRequest

/-- The text of a request is found behind its first `:`. -/
theorem lcsWhsRecvRequest_text (p : LcsWhsRequestData) :
    lcsWhsRecvRequest (some (requestText p)) zeroRequest =
      (lcsWhsGenRequest ([9].intercalate p.fields) zeroRequest >>= fun q => .ok (q, false)) := by
  have hstr : strstr (requestText p) lcsWhsRequest = true :=
    decide_eq_true (List.prefix_append _ _).isInfix
  have hdrop : (requestText p).dropWhile (· ≠ 58) = 58 :: [9].intercalate p.fields := rfl
  rw [lcsWhsRecvRequest, if_pos hstr, hdrop]

theorem fields_length (p : LcsWhsRequestData) : ∀ f ∈ p.fields, f.length < 64 := by
  have := p.dbserver.lt
  have := p.dbname.lt
  have := p.datefrom.lt
  have := p.dateto.lt
  have := p.analysis.lt
  have := p.mode.lt
  simp only [LcsWhsRequestData.fields, List.mem_cons, List.not_mem_nil, or_false]
  rintro f (rfl | rfl | rfl | rfl | rfl | rfl) <;> omega

theorem getD_append_replicate (a : List Bytes) (k i : ℕ) :
    (a ++ List.replicate k []).getD i [] = a.getD i [] := by
  rw [List.getD_eq_getElem?_getD, List.getD_eq_getElem?_getD]
  rcases Nat.lt_or_ge i a.length with hi | hi
  · rw [List.getElem?_append_left hi]
  · rw [List.getElem?_append_right hi, List.getElem?_replicate, List.getElem?_eq_none hi]
    split_ifs <;> rfl

/-- A request is parsed into its fields exactly when these are kept. -/
theorem lcsWhsGenRequest_fields_iff {p : LcsWhsRequestData}
    (htab : ∀ f ∈ p.fields, (9 : UInt8) ∉ f) :
    lcsWhsGenRequest ([9].intercalate p.fields) zeroRequest = .ok p ↔ Kept p.fields := by
  have hsix : p.fields.length ≤ 32 := (by omega : 6 ≤ 32)
  rw [lcsWhsGenRequest_ok_iff]
  constructor
  · rintro ⟨-, h0, h1, h2, h3, h4, h5⟩
    refine kept_of_requestTokens htab hsix fun i hi => ?_
    match i, hi with
    | 0, _ => exact h0
    | 1, _ => exact h1
    | 2, _ => exact h2
    | 3, _ => exact h3
    | 4, _ => exact h4
    | 5, _ => exact h5
  · intro hkept
    obtain ⟨k, hk⟩ := requestTokens_of_kept htab hkept hsix
    have hget : ∀ i, (requestTokens 32 ([9].intercalate p.fields)).getD i [] =
        p.fields.getD i [] := by
      intro i
      have hentry := getD_append_replicate (requestTokens 32 ([9].intercalate p.fields)) k i
      rw [hk] at hentry
      exact hentry.symm
    refine ⟨fun t ht => ?_, hget 0, hget 1, hget 2, hget 3, hget 4, hget 5⟩
    have hmem : t ∈ p.fields := hk ▸ List.mem_append_left _ ht
    exact (fields_length p t hmem).le.trans (by omega)

theorem requestText_length_lt (p : LcsWhsRequestData) : (requestText p).length < 509 := by
  have h0 := p.dbserver.lt
  have h1 := p.dbname.lt
  have h2 := p.datefrom.lt
  have h3 := p.dateto.lt
  have h4 := p.analysis.lt
  have h5 := p.mode.lt
  simp only [requestText, lcsWhsRequest, LcsWhsRequestData.fields, List.intercalate_cons_cons,
    List.intercalate_singleton, List.length_append, List.length_cons, List.length_nil]
  omega

theorem requestText_noNul (p : LcsWhsRequestData) : (0 : UInt8) ∉ requestText p := by
  have hfields : (0 : UInt8) ∉ [9].intercalate p.fields := by
    refine notMem_intercalate (by decide) fun f hf => ?_
    simp only [LcsWhsRequestData.fields, List.mem_cons, List.not_mem_nil, or_false] at hf
    rcases hf with rfl | rfl | rfl | rfl | rfl | rfl
    exacts [p.dbserver.noNul, p.dbname.noNul, p.datefrom.noNul, p.dateto.noNul, p.analysis.noNul,
      p.mode.noNul]
  simp [requestText, lcsWhsRequest, hfields]

/-- What is served for a request is what is parsed of its text. -/
theorem serveRequest_eq (c : Des) (behind : ℕ → Fin 507 → UInt8) (p : LcsWhsRequestData) {fuel : ℕ}
    (hfuel : 0 < fuel) : serveRequest c behind fuel p =
      some (lcsWhsGenRequest ([9].intercalate p.fields) zeroRequest >>=
        fun q => .ok (q, false)) := by
  obtain ⟨s, hrun, hdata, -, -⟩ := comesBack_of_length_le (c := c) behind (requestText_noNul p)
    (requestText_length_lt p)
  rw [serveRequest, hrun fuel hfuel, Option.map_some, hdata, lcsWhsRecvRequest_text]

theorem kept_fields_iff (p : LcsWhsRequestData) :
    Kept p.fields ↔ p.dbserver.bytes ≠ [] ∧ p.dbname.bytes ≠ [] ∧ p.datefrom.bytes ≠ [] ∧
      p.dateto.bytes ≠ [] ∧ (p.analysis.bytes ≠ [] ∨ p.mode.bytes = []) ∧
        p.mode.bytes.length ≠ 1 := by
  simp only [LcsWhsRequestData.fields, Kept, reduceCtorEq, and_false, or_false, and_true]
  by_cases hanalysis : p.analysis.bytes = []
  · by_cases hmode : p.mode.bytes = []
    · simp [hanalysis, hmode]
    · simp [hanalysis, hmode]
  · simp [hanalysis]

/-- The six fields come back exactly when the first four are not empty, the fifth is not unless the
sixth is too, and the sixth is not of one byte. -/
theorem request_roundtrip_iff (c : Des) (behind : ℕ → Fin 507 → UInt8) (p : LcsWhsRequestData)
    (htab : ∀ f ∈ p.fields, (9 : UInt8) ∉ f) :
    (∀ fuel, 0 < fuel → serveRequest c behind fuel p = some (.ok (p, false))) ↔
      p.dbserver.bytes ≠ [] ∧ p.dbname.bytes ≠ [] ∧ p.datefrom.bytes ≠ [] ∧ p.dateto.bytes ≠ [] ∧
        (p.analysis.bytes ≠ [] ∨ p.mode.bytes = []) ∧ p.mode.bytes.length ≠ 1 := by
  rw [← kept_fields_iff, ← lcsWhsGenRequest_fields_iff htab]
  constructor
  · intro h
    have hone := h 1 Nat.one_pos
    rw [serveRequest_eq c behind p Nat.one_pos, Option.some_inj, bind_eq_ok_iff] at hone
    obtain ⟨q, hq, hqp⟩ := hone
    rw [hq, (Prod.mk.inj (Except.ok.inj hqp)).1]
  · intro h fuel hfuel
    rw [serveRequest_eq c behind p hfuel, h]
    rfl

/-- A request of one-byte fields, in which the mode is the given text. -/
def oneByteRequest (mode : CStr 16) : LcsWhsRequestData :=
  ⟨⟨[83], by decide, by decide⟩, ⟨[78], by decide, by decide⟩, ⟨[70], by decide, by decide⟩,
    ⟨[84], by decide, by decide⟩, ⟨[65], by decide, by decide⟩, mode⟩

/-- `day`. -/
def dayMode : CStr 16 := ⟨[100, 97, 121], by decide, by decide⟩

theorem request_roundtrip_iff_sample :
    (∀ fuel, 0 < fuel → serveRequest reverseBlocks (fun _ _ => 0) fuel (oneByteRequest dayMode) =
      some (.ok (oneByteRequest dayMode, false))) ↔
    ([83] : Bytes) ≠ [] ∧ ([78] : Bytes) ≠ [] ∧ ([70] : Bytes) ≠ [] ∧ ([84] : Bytes) ≠ [] ∧
      (([65] : Bytes) ≠ [] ∨ ([100, 97, 121] : Bytes) = []) ∧ ([100, 97, 121] : Bytes).length ≠ 1 :=
  request_roundtrip_iff reverseBlocks (fun _ _ => 0) (oneByteRequest dayMode) (by decide)

/-- A mode of one byte is lost, and an empty name takes the tab and the date behind it. -/
theorem request_fields_shift :
    (lcsWhsRecvRequest (some (requestText (oneByteRequest ⟨[121], by decide, by decide⟩)))
      zeroRequest).map (fun r => r.1.fields) = .ok [[83], [78], [70], [84], [65], []] ∧
    (lcsWhsRecvRequest (some (requestText { oneByteRequest dayMode with
      dbname := emptyStr (Nat.succ_pos 63) })) zeroRequest).map (fun r => r.1.fields) =
        .ok [[83], [9, 70], [84], [65], [100, 97, 121], []] := by
  decide +kernel

end MemoryLeak.Cluster
