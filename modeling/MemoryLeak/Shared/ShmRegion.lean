import MemoryLeak.CBytes
import MemoryLeak.Streams

/-!
# The shared-memory region

`ntt_write_shm` and `ntt_read_shm` on one region, the calls of all processes
interleaved: a call runs under the region's lock and is one step. The size of the
header, `sizeof(LIST_SHARED_DATA)`, is a parameter; the bytes of `data` are those
behind it.
-/
namespace MemoryLeak.Shared
open MemoryLeak.CBytes MemoryLeak.Runs MemoryLeak.Streams

/-- The fields of the header that the two calls use, and the bytes behind it. -/
structure ListSharedData where
  total : ℕ
  usedData : ℕ
  readPid : ℤ
  sleeping : Bool
  data : Bytes

/-- The region as `ntt_open_shm(sz)` creates it. -/
def nttOpenShm (hdr sz : ℕ) : ListSharedData := ⟨sz, 0, 0, false, zeros (sz - hdr)⟩

/-- What a write returns, what it leaves in `*pcid` when it sets `*sendsig`, whether
it logs that a backup is due, and the offset and length of its copy. -/
structure WriteOut where
  rs : ℤ
  signal : Option ℤ
  backup : Bool
  copy : Option (ℕ × ℕ)

/-- `(n + p->used_data + sizeof(LIST_SHARED_DATA)) >= p->total`. -/
def noRoom (hdr : ℕ) (p : ListSharedData) (n : ℕ) : Bool :=
  decide (p.total ≤ (n + p.usedData + hdr) % 2 ^ 64)

/-- `errx` tells that taking the lock failed, `sig` that both `sendsig` and `pcid`
are given. -/
def nttWriteShm (hdr : ℕ) (errx : Bool) (p : ListSharedData) (data : BufArg) (sig : Bool) :
    ListSharedData × WriteOut :=
  match data.ptr with
  | none => (p, ⟨-1, none, false, none⟩)
  | some _ =>
    if data.n < 1 then (p, ⟨0, none, false, none⟩)
    else if errx then (p, ⟨0, none, false, none⟩)
    else
      let signal := if p.sleeping && sig then some p.readPid else none
      let full := noRoom hdr p data.n.toNat
      let used := if full then 0 else p.usedData
      let used' := (used + data.n.toNat) % 2 ^ 64
      ({ p with data := memcpy p.data used data.bytes, usedData := used' },
        ⟨toInt used', signal, full, some (used, data.n.toNat)⟩)

/-- What a read returns and leaves in `*data`. -/
structure ReadOut where
  rs : ℤ
  data : Option Bytes

/-- The bytes the reader is given. -/
def ReadOut.bytes (o : ReadOut) : Bytes := (o.data.getD []).take o.rs.toNat

/-- `pidd` is the static variable of the calling process. The argument `clean` is not
used. -/
def nttReadShm (errx malloc : Bool) (p : ListSharedData) (pidd getpid : ℤ) :
    (ListSharedData × ℤ) × ReadOut :=
  let first := decide (pidd = 0)
  let pidd' := if first then getpid else pidd
  let p := if first then { p with readPid := getpid } else p
  if errx then ((p, pidd'), ⟨0, none⟩)
  else
    let n := toInt p.usedData
    if n < 1 then (({ p with sleeping := true }, pidd'), ⟨0, none⟩)
    else if !malloc then ((p, pidd'), ⟨0, none⟩)
    else
      (({ p with usedData := 0, data := p.data.set 0 0, sleeping := false }, pidd'),
        ⟨n, some (memcpy (zeros (n.toNat + 1)) 0 (p.data.take n.toNat))⟩)

/-- The region and the static `pidd` of each process. -/
structure ShmState where
  p : ListSharedData
  pidd : ℤ → ℤ

inductive Call where
  /-- A call of `ntt_write_shm` by any process. -/
  | write (errx : Bool) (data : BufArg) (sig : Bool)
  /-- A call of `ntt_read_shm` by the process `pid`. -/
  | read (pid : ℤ) (errx malloc : Bool)

inductive Out where
  | write (o : WriteOut)
  | read (o : ReadOut)

def shmStep (hdr : ℕ) (s : ShmState) : Call → ShmState × Out
  | .write errx data sig =>
    let r := nttWriteShm hdr errx s.p data sig
    ({ s with p := r.1 }, .write r.2)
  | .read pid errx malloc =>
    let r := nttReadShm errx malloc s.p (s.pidd pid) pid
    (⟨r.1.1, Function.update s.pidd pid r.1.2⟩, .read r.2)

/-- The region just created, no process having read yet. -/
def ShmState.init (hdr total : ℕ) : ShmState := ⟨nttOpenShm hdr total, fun _ => 0⟩

/-- The item a call stores: none if it is a read, if the lock fails, if the data is
null or the length is below 1. -/
def Call.item : Call → Bytes
  | .write errx data _ => if errx then [] else data.bytes
  | .read _ _ _ => []

/-- The item of the call fits an empty region. -/
def Call.Fits (hdr total : ℕ) (c : Call) : Prop := hdr + c.item.length ≤ total

/-- The copy made by a call stays inside the region. -/
def Out.CopyInside (hdr total : ℕ) : Out → Prop
  | .write o => ∀ c ∈ o.copy, hdr + c.1 + c.2 ≤ total
  | .read _ => True

/-- The events of a call: an item stored behind the others or, with the backup
logged, stored first; the bytes of a non-empty read. -/
def shmEvents : Call → Out → List (Event UInt8)
  | c, .write o =>
    if o.copy.isSome then
      if o.backup then [.restart c.item] else [.push c.item]
    else []
  | _, .read o => if o.bytes = [] then [] else [.drain o.bytes]

/-! ### One call -/

/-- The calls of `ntt_write_shm` that store something. -/
theorem nttWriteShm_stores (hdr : ℕ) (p : ListSharedData) {data : BufArg} (sig : Bool)
    (hne : data.bytes ≠ []) :
    ∃ rs signal, nttWriteShm hdr false p data sig =
      ({ p with
          data := memcpy p.data (if noRoom hdr p data.bytes.length then 0 else p.usedData)
            data.bytes
          usedData := ((if noRoom hdr p data.bytes.length then 0 else p.usedData) +
            data.bytes.length) % 2 ^ 64 },
        ⟨rs, signal, noRoom hdr p data.bytes.length,
          some (if noRoom hdr p data.bytes.length then 0 else p.usedData, data.bytes.length)⟩) := by
  cases hptr : data.ptr with
  | none => simp [BufArg.bytes, hptr] at hne
  | some b =>
    have hlen := BufArg.length_bytes hptr
    have hpos : 0 < data.bytes.length := List.length_pos_iff.mpr hne
    have hn : ¬ data.n < 1 := by omega
    simp only [nttWriteShm, hptr, if_neg hn, hlen]
    exact ⟨_, _, rfl⟩

/-- The calls of `ntt_write_shm` that store nothing. -/
theorem nttWriteShm_keeps (hdr : ℕ) {errx : Bool} (p : ListSharedData) {data : BufArg} {sig : Bool}
    (h : (Call.write errx data sig).item = []) :
    ∃ rs, nttWriteShm hdr errx p data sig = (p, ⟨rs, none, false, none⟩) := by
  cases hptr : data.ptr with
  | none => exact ⟨-1, by simp only [nttWriteShm, hptr]⟩
  | some b =>
    refine ⟨0, ?_⟩
    by_cases hn : data.n < 1
    · simp only [nttWriteShm, hptr, if_pos hn]
    · have hlen := BufArg.length_bytes hptr
      have herr : errx = true := by
        cases errx with
        | true => rfl
        | false =>
          have hnil : data.bytes = [] := h
          rw [hnil, List.length_nil] at hlen
          omega
      simp [nttWriteShm, hptr, herr]

/-- The region holds the pending items, in order, and has room for them. -/
structure Holds (hdr total : ℕ) (s : ShmState) (pending : List (List UInt8)) : Prop where
  total_eq : s.p.total = total
  used : s.p.usedData = pending.flatten.length
  inside : hdr + s.p.usedData ≤ total
  size : hdr + s.p.data.length = total
  stored : s.p.data.take s.p.usedData = pending.flatten

theorem holds_init {hdr total : ℕ} (h : hdr ≤ total) :
    Holds hdr total (ShmState.init hdr total) [] where
  total_eq := rfl
  used := rfl
  inside := h
  size := by simp [ShmState.init, nttOpenShm]; omega
  stored := rfl

/-- An item is copied behind those that are kept. -/
theorem Holds.store {hdr total : ℕ} (htotal : total < 2 ^ 31) {s : ShmState}
    {p kept : List (List UInt8)} (hs : Holds hdr total s p) {off : ℕ}
    (hoff : off = kept.flatten.length) (hkept : s.p.data.take off = kept.flatten) {item : Bytes}
    (hfit : hdr + off + item.length ≤ total) :
    Holds hdr total { s with p := { s.p with
      data := memcpy s.p.data off item
      usedData := (off + item.length) % 2 ^ 64 } } (kept ++ [item]) := by
  have hsize := hs.size
  have hmod : (off + item.length) % 2 ^ 64 = off + item.length := Nat.mod_eq_of_lt (by omega)
  constructor
  · exact hs.total_eq
  · rw [hmod, hoff]
    simp
  · simp only [hmod]
    omega
  · rw [memcpy_length (by omega)]
    exact hsize
  · simp only [hmod]
    rw [memcpy_take_end (by omega) rfl, hkept]
    simp

/-- An item that fits an empty region is stored behind the pending ones when there is
room for it and otherwise first, in both cases inside the region. -/
theorem write_step {hdr total : ℕ} (htotal : total < 2 ^ 31) {s : ShmState}
    {p : List (List UInt8)} (hs : Holds hdr total s p) {errx : Bool} {data : BufArg} {sig : Bool}
    (hfit : (Call.write errx data sig).Fits hdr total) :
    let r := shmStep hdr s (.write errx data sig)
    let events := shmEvents (.write errx data sig) r.2
    Legal p events ∧ Holds hdr total r.1 (pendingFrom p events) ∧ r.2.CopyInside hdr total := by
  by_cases hitem : (Call.write errx data sig).item = []
  · obtain ⟨rs, hw⟩ := nttWriteShm_keeps hdr s.p hitem
    simp only [shmStep, hw, shmEvents, Out.CopyInside]
    exact ⟨trivial, hs, by simp⟩
  · cases errx with
    | true => exact absurd rfl hitem
    | false =>
      have hbytes : data.bytes ≠ [] := hitem
      have hlen : hdr + data.bytes.length ≤ total := hfit
      obtain ⟨rs, signal, hw⟩ := nttWriteShm_stores hdr s.p sig hbytes
      have hin := hs.inside
      have hroom : noRoom hdr s.p data.bytes.length =
          decide (total ≤ data.bytes.length + s.p.usedData + hdr) := by
        rw [noRoom, hs.total_eq, Nat.mod_eq_of_lt (by omega)]
      by_cases hfull : total ≤ data.bytes.length + s.p.usedData + hdr
      · have hstore := @Holds.store hdr total htotal s p [] hs 0 rfl rfl data.bytes hlen
        simp only [shmStep, hw, hroom, decide_eq_true hfull, if_true, shmEvents, Option.isSome_some]
        exact ⟨⟨trivial, trivial⟩, hstore, by simpa [Out.CopyInside] using hlen⟩
      · have hroom' : hdr + s.p.usedData + data.bytes.length ≤ total := by omega
        have hstore := hs.store htotal hs.used hs.stored hroom'
        simp only [shmStep, hw, hroom, decide_eq_false hfull, Bool.false_eq_true, if_false,
          shmEvents, Option.isSome_some, if_true]
        refine ⟨⟨trivial, trivial⟩, hstore, ?_⟩
        simp only [Out.CopyInside, Option.mem_def, Option.some.injEq]
        rintro _ rfl
        dsimp only
        omega

/-- A read hands out everything stored, or it fails and only notes that the reader is
there or sleeps. -/
theorem nttReadShm_cases (errx malloc : Bool) {p : ListSharedData} (pidd getpid : ℤ)
    (hlt : p.usedData < 2 ^ 31) :
    ∃ q pidd', q.total = p.total ∧ q.usedData = p.usedData ∧ q.data = p.data ∧
      (nttReadShm errx malloc p pidd getpid = ((q, pidd'), ⟨0, none⟩) ∧
          (errx = false → malloc = true → p.usedData = 0) ∨
        0 < p.usedData ∧ nttReadShm errx malloc p pidd getpid =
          (({ q with usedData := 0, data := p.data.set 0 0 }, pidd'),
            ⟨p.usedData, some (memcpy (zeros (p.usedData + 1)) 0 (p.data.take p.usedData))⟩)) := by
  obtain ⟨q, hq, hq₁, hq₂, hq₃⟩ : ∃ q, q = (if decide (pidd = 0) then { p with readPid := getpid }
      else p) ∧ q.total = p.total ∧ q.usedData = p.usedData ∧ q.data = p.data := by
    by_cases h : pidd = 0
    · exact ⟨_, rfl, by simp [h]⟩
    · exact ⟨_, rfl, by simp [h]⟩
  simp only [nttReadShm, ← hq, hq₂, toInt_of_lt hlt]
  cases errx with
  | true => exact ⟨q, _, hq₁, hq₂, hq₃, Or.inl ⟨rfl, by simp⟩⟩
  | false =>
    by_cases hn : (p.usedData : ℤ) < 1
    · simp only [Bool.false_eq_true, if_false, if_pos hn]
      exact ⟨{ q with sleeping := true }, _, hq₁, hq₂, hq₃, Or.inl ⟨by rw [hq₂], by omega⟩⟩
    · cases malloc with
      | false =>
        simp only [Bool.false_eq_true, if_false, if_neg hn, Bool.not_false, if_true]
        exact ⟨q, _, hq₁, hq₂, hq₃, Or.inl ⟨rfl, by simp⟩⟩
      | true =>
        simp only [Bool.false_eq_true, if_false, if_neg hn, Bool.not_true, Int.toNat_natCast]
        exact ⟨{ q with sleeping := false }, _, hq₁, hq₂, hq₃,
          Or.inr ⟨by omega, by rw [hq₃]⟩⟩

theorem readOut_bytes {stored : Bytes} {n : ℕ} (h : stored.length = n) :
    ReadOut.bytes ⟨n, some (memcpy (zeros (n + 1)) 0 stored)⟩ = stored := by
  simp [ReadOut.bytes, memcpy_zeros, ← h]

/-- A read that succeeds hands out the pending items, a read that fails leaves them. -/
theorem read_step {hdr total : ℕ} (htotal : total < 2 ^ 31) {s : ShmState}
    {p : List (List UInt8)} (hs : Holds hdr total s p) (pid : ℤ) (errx malloc : Bool) :
    ∃ s' o, shmStep hdr s (.read pid errx malloc) = (s', .read o) ∧
      (o.bytes ≠ [] ∨ errx = false ∧ malloc = true → o.bytes = p.flatten) ∧
      Holds hdr total s' (if o.bytes = [] then p else []) := by
  have hin := hs.inside
  have hsize := hs.size
  obtain ⟨q, pidd', hq₁, hq₂, hq₃, ⟨hr, hempty⟩ | ⟨hpos, hr⟩⟩ :=
    nttReadShm_cases errx malloc (p := s.p) (s.pidd pid) pid (by omega)
  · refine ⟨⟨q, Function.update s.pidd pid pidd'⟩, ⟨0, none⟩, by simp only [shmStep, hr], ?_, ?_⟩
    · rintro (hne | ⟨hlock, hmalloc⟩)
      · exact absurd rfl hne
      · have hzero := hempty hlock hmalloc
        rw [hs.used, List.length_eq_zero_iff] at hzero
        exact hzero.symm
    · rw [if_pos (by rfl)]
      exact ⟨hq₁.trans hs.total_eq, hq₂.trans hs.used, by simpa only [hq₂] using hin,
        by simpa only [hq₃] using hs.size, by simpa only [hq₂, hq₃] using hs.stored⟩
  · refine ⟨⟨{ q with usedData := 0, data := s.p.data.set 0 0 }, Function.update s.pidd pid pidd'⟩,
      ⟨s.p.usedData, some (memcpy (zeros (s.p.usedData + 1)) 0 (s.p.data.take s.p.usedData))⟩,
      by simp only [shmStep, hr], ?_, ?_⟩
    all_goals rw [readOut_bytes (by simp; omega), hs.stored]
    · exact fun _ => rfl
    · have hne : p.flatten ≠ [] := by
        rw [← List.length_pos_iff, ← hs.used]
        exact hpos
      rw [if_neg hne]
      exact ⟨hq₁.trans hs.total_eq, rfl, by simp; omega, by simpa using hsize, rfl⟩

/-! ### Runs -/

/-- The calls on a fresh region, and their results. -/
def shmRun (hdr total : ℕ) (calls : List Call) : ShmState × List Out :=
  exec (shmStep hdr) (.init hdr total) calls

/-- The items stored and handed out by the calls on a fresh region. -/
def shmTrace (hdr total : ℕ) (calls : List Call) : List (Event UInt8) :=
  trace (shmStep hdr) shmEvents (.init hdr total) calls

theorem call_step {hdr total : ℕ} (htotal : total < 2 ^ 31) {s : ShmState}
    {p : List (List UInt8)} (hs : Holds hdr total s p) {c : Call} (hfit : c.Fits hdr total) :
    (Legal p (shmEvents c (shmStep hdr s c).2) ∧
      Holds hdr total (shmStep hdr s c).1 (pendingFrom p (shmEvents c (shmStep hdr s c).2))) ∧
    (shmStep hdr s c).2.CopyInside hdr total := by
  cases c with
  | write errx data sig =>
    obtain ⟨hlegal, hholds, hcopy⟩ := write_step htotal hs hfit
    exact ⟨⟨hlegal, hholds⟩, hcopy⟩
  | read pid errx malloc =>
    obtain ⟨s', o, hstep, hbytes, hholds⟩ := read_step htotal hs pid errx malloc
    rw [hstep]
    refine ⟨?_, trivial⟩
    by_cases hnil : o.bytes = []
    · simp only [shmEvents, hnil, if_true] at hholds ⊢
      exact ⟨trivial, hholds⟩
    · simp only [shmEvents, if_neg hnil] at hholds ⊢
      exact ⟨⟨hbytes (Or.inl hnil), trivial⟩, hholds⟩

/-- The calls of a run whose items fit an empty region: their trace is legal and the
region holds what is pending. -/
theorem shmRun_holds {hdr total : ℕ} (hhdr : hdr < total) (htotal : total < 2 ^ 31)
    {calls : List Call} (hfit : ∀ c ∈ calls, c.Fits hdr total) :
    Legal [] (shmTrace hdr total calls) ∧
      Holds hdr total (shmRun hdr total calls).1 (since (shmTrace hdr total calls)) := by
  have hstep : ∀ (s : ShmState) (c : Call) (p : List (List UInt8)), Holds hdr total s p →
      c.Fits hdr total → Legal p (shmEvents c (shmStep hdr s c).2) ∧
        Holds hdr total (shmStep hdr s c).1 (pendingFrom p (shmEvents c (shmStep hdr s c).2)) :=
    fun s c p hs hC => (call_step htotal hs hC).1
  exact trace_legal hstep (holds_init hhdr.le) (along_of_forall (fun _ _ hc => hc) _ hfit)

/-- The items stored by the calls, in order. -/
def stored (calls : List Call) : List Bytes := (calls.map Call.item).filter (· ≠ [])

/-- A call stores its item, in the state it is made in, if it has one. -/
theorem items_shmEvents (hdr : ℕ) (s : ShmState) (c : Call) :
    items (shmEvents c (shmStep hdr s c).2) = stored [c] := by
  cases c with
  | write errx data sig =>
    by_cases hitem : (Call.write errx data sig).item = []
    · obtain ⟨rs, hw⟩ := nttWriteShm_keeps hdr s.p hitem
      simp only [shmStep, hw, shmEvents, stored, List.map_cons, hitem]
      rfl
    · cases errx with
      | true => exact absurd rfl hitem
      | false =>
        obtain ⟨rs, signal, hw⟩ := nttWriteShm_stores hdr s.p sig hitem
        simp only [shmStep, hw, shmEvents, Option.isSome_some, if_true, stored]
        by_cases hroom : noRoom hdr s.p data.bytes.length = true
        · simp [hroom, hitem, items, Event.item?]
        · simp [hroom, hitem, items, Event.item?]
  | read pid errx malloc =>
    have hnil : items (shmEvents (.read pid errx malloc)
        (shmStep hdr s (.read pid errx malloc)).2) = [] := by
      simp only [shmStep, shmEvents]
      split <;> rfl
    rw [hnil]
    rfl

theorem items_shmTrace (hdr total : ℕ) (calls : List Call) :
    items (shmTrace hdr total calls) = stored calls := by
  unfold shmTrace
  generalize ShmState.init hdr total = s
  induction calls generalizing s with
  | nil => rfl
  | cons c calls ih =>
    have hsplit : stored (c :: calls) = stored [c] ++ stored calls := by
      simp only [stored, ← List.filter_append, ← List.map_append, List.singleton_append]
    rw [trace_cons, items, List.filterMap_append, hsplit]
    exact congrArg₂ (· ++ ·) (items_shmEvents hdr s c) (ih _)

/-- Every copy stays inside the region, and `used_data` inside what is behind the
header, in exactly the runs whose items each fit an empty region. -/
theorem copies_inside_iff {hdr total : ℕ} (hhdr : hdr < total) (htotal : total < 2 ^ 31)
    (calls : List Call) :
    ((∀ o ∈ (shmRun hdr total calls).2, o.CopyInside hdr total) ∧
      ∀ k, hdr + (shmRun hdr total (calls.take k)).1.p.usedData ≤ total) ↔
    ∀ c ∈ calls, c.Fits hdr total := by
  constructor
  · rintro ⟨hcopies, -⟩ c hc
    obtain ⟨k, hk⟩ := List.mem_iff_getElem?.mp hc
    have hout : (exec (shmStep hdr) (.init hdr total) calls).2[k]? = _ := exec_getElem? _ calls k
    rw [hk] at hout
    have hinside := hcopies _ (List.mem_of_getElem? hout)
    by_cases hitem : c.item = []
    · simpa [Call.Fits, hitem] using hhdr.le
    · cases c with
      | read pid errx malloc => exact absurd rfl hitem
      | write errx data sig =>
        cases errx with
        | true => exact absurd rfl hitem
        | false =>
          obtain ⟨rs, signal, hw⟩ := nttWriteShm_stores hdr
            (exec (shmStep hdr) (.init hdr total) (calls.take k)).1.p sig hitem
          simp only [shmStep, hw, Out.CopyInside, Option.mem_def, Option.some.injEq,
            forall_eq'] at hinside
          exact le_trans (by simp [Call.item]) hinside
  · intro hfit
    have hk : ∀ k, ∀ c ∈ calls.take k, c.Fits hdr total :=
      fun k c hc => hfit c (List.mem_of_mem_take hc)
    refine ⟨?_, fun k => (shmRun_holds hhdr htotal (hk k)).2.inside⟩
    intro o ho
    obtain ⟨k, ho⟩ := List.mem_iff_getElem?.mp ho
    rw [shmRun, exec_getElem?, Option.map_eq_some_iff] at ho
    obtain ⟨c, hc, rfl⟩ := ho
    exact (call_step htotal (shmRun_holds hhdr htotal (hk k)).2
      (hfit c (List.mem_of_getElem? hc))).2

/-- A write of the given bytes by a process that takes the lock. -/
def writeBytes (b : Bytes) (h : b.length < 2 ^ 31) : Call :=
  .write false (.ofBytes b h) true

theorem copies_inside_iff_sample :
    288 < 300 ∧ 300 < 2 ^ 31 ∧
    (((∀ o ∈ (shmRun 288 300 [writeBytes [1, 2, 3] (by decide)]).2, o.CopyInside 288 300) ∧
      ∀ k, 288 + (shmRun 288 300 ([writeBytes [1, 2, 3] (by decide)].take k)).1.p.usedData ≤ 300) ↔
    ∀ c ∈ [writeBytes [1, 2, 3] (by decide)], c.Fits 288 300) :=
  ⟨by decide, by decide, copies_inside_iff (by decide) (by decide) _⟩

/-- Five bytes written to a region with room for four: the reset frees nothing and the
copy ends behind the region. -/
theorem copy_outside_small_region :
    288 < 292 ∧ ¬ ((∀ o ∈ (shmRun 288 292 [writeBytes [1, 2, 3, 4, 5] (by decide)]).2,
        o.CopyInside 288 292) ∧
      ∀ k, 288 + (shmRun 288 292 ([writeBytes [1, 2, 3, 4, 5] (by decide)].take k)).1.p.usedData
        ≤ 292) := by
  refine ⟨by decide, fun h => ?_⟩
  have hused : (shmRun 288 292 [writeBytes [1, 2, 3, 4, 5] (by decide)]).1.p.usedData = 5 := by
    decide
  have hle := h.2 1
  rw [List.take_of_length_le (by simp), hused] at hle
  omega

/-- What is stored and not yet read or dropped before the call `k`. -/
def pendingAt (hdr total : ℕ) (calls : List Call) (k : ℕ) : List (List UInt8) :=
  since (shmTrace hdr total (calls.take k))

/-- The bytes that the reads of a run hand out. -/
def reads (outs : List Out) : List Bytes :=
  outs.filterMap fun
    | .write _ => none
    | .read o => some o.bytes

/-- A call with an item stores it, behind what is pending or, where there is no room for both,
first. -/
theorem item_stored {hdr total : ℕ} (htotal : total < 2 ^ 31) {s : ShmState}
    {p : List (List UInt8)} (hs : Holds hdr total s p) {c : Call} (hitem : c.item ≠ [])
    (hfit : c.Fits hdr total) : shmEvents c (shmStep hdr s c).2 =
      [if total ≤ hdr + p.flatten.length + c.item.length then .restart c.item
        else .push c.item] := by
  cases c with
  | read pid errx malloc => exact absurd rfl hitem
  | write errx data sig =>
    cases errx with
    | true => exact absurd rfl hitem
    | false =>
      have hlen : hdr + data.bytes.length ≤ total := hfit
      obtain ⟨rs, signal, hw⟩ := nttWriteShm_stores hdr s.p sig hitem
      have hin := hs.inside
      have hroom : noRoom hdr s.p data.bytes.length =
          decide (total ≤ hdr + p.flatten.length + data.bytes.length) := by
        rw [noRoom, hs.total_eq, Nat.mod_eq_of_lt (by omega), ← hs.used, decide_eq_decide]
        omega
      simp only [shmStep, hw, hroom, shmEvents, Option.isSome_some, if_true, decide_eq_true_eq]
      have hbytes : (Call.write false data sig).item = data.bytes := rfl
      rw [hbytes]
      split_ifs <;> rfl

/-- Every item is stored, behind what is pending or first. What a read returns is the
concatenation of the items stored since the later of the last non-empty read and the last overflow
reset; all reads together return items in their order, whole and at most once. -/
theorem read_returns_items_since {hdr total : ℕ} (hhdr : hdr < total) (htotal : total < 2 ^ 31)
    (calls : List Call) (hfit : ∀ c ∈ calls, c.Fits hdr total) :
    (∀ k c o, calls[k]? = some c → (shmRun hdr total calls).2[k]? = some o → c.item ≠ [] →
      shmEvents c o = [if total ≤ hdr + (pendingAt hdr total calls k).flatten.length + c.item.length
        then .restart c.item else .push c.item]) ∧
    items (shmTrace hdr total calls) = stored calls ∧
    (∀ k pid errx malloc o, calls[k]? = some (.read pid errx malloc) →
      (shmRun hdr total calls).2[k]? = some (.read o) →
      o.bytes ≠ [] ∨ errx = false ∧ malloc = true →
      o.bytes = (pendingAt hdr total calls k).flatten) ∧
    ∃ handed : List (List (List UInt8)),
      drains (shmTrace hdr total calls) = handed.map List.flatten ∧
      List.Sublist handed.flatten (stored calls) := by
  have hholds : ∀ k, Holds hdr total (exec (shmStep hdr) (.init hdr total) (calls.take k)).1
      (pendingAt hdr total calls k) := fun k =>
    (shmRun_holds hhdr htotal fun c hc => hfit c (List.mem_of_mem_take hc)).2
  refine ⟨?_, items_shmTrace hdr total calls, ?_, ?_⟩
  · intro k c o hc ho hitem
    rw [shmRun, exec_getElem?, hc, Option.map_some, Option.some.injEq] at ho
    rw [← ho]
    exact item_stored htotal (hholds k) hitem (hfit c (List.mem_of_getElem? hc))
  · intro k pid errx malloc o hc ho hne
    obtain ⟨s', o', hstep, hbytes, -⟩ := read_step htotal (hholds k) pid errx malloc
    rw [shmRun, exec_getElem?, hc, Option.map_some, Option.some.injEq] at ho
    rw [hstep] at ho
    cases ho
    exact hbytes hne
  · obtain ⟨handed, hd, hsub⟩ := (shmRun_holds hhdr htotal hfit).1.exists_handed
    rw [items_shmTrace, List.nil_append] at hsub
    exact ⟨handed, hd, (List.sublist_append_left _ _).trans hsub⟩

/-- Two items read together, and one that the next one leaves no room for. -/
theorem read_returns_items_since_sample :
    let calls := [writeBytes [1, 2, 3] (by decide), writeBytes [4, 5] (by decide),
      .read 7 false true, writeBytes [6, 7, 8, 9, 10, 11] (by decide),
      writeBytes [12, 13, 14, 15, 16, 17] (by decide), .read 7 false true]
    reads (shmRun 288 300 calls).2 = [[1, 2, 3, 4, 5], [12, 13, 14, 15, 16, 17]] ∧
    (∀ c ∈ calls, c.Fits 288 300) ∧
    (∀ k c o, calls[k]? = some c → (shmRun 288 300 calls).2[k]? = some o → c.item ≠ [] →
      shmEvents c o = [if 300 ≤ 288 + (pendingAt 288 300 calls k).flatten.length + c.item.length
        then .restart c.item else .push c.item]) ∧
    items (shmTrace 288 300 calls) = stored calls ∧
    (∀ k pid errx malloc o, calls[k]? = some (.read pid errx malloc) →
      (shmRun 288 300 calls).2[k]? = some (.read o) →
      o.bytes ≠ [] ∨ errx = false ∧ malloc = true →
      o.bytes = (pendingAt 288 300 calls k).flatten) ∧
    ∃ handed : List (List (List UInt8)),
      drains (shmTrace 288 300 calls) = handed.map List.flatten ∧
      List.Sublist handed.flatten (stored calls) := by
  intro calls
  have hfit : ∀ c ∈ calls, c.Fits 288 300 := by
    simp [calls, writeBytes, BufArg.ofBytes, Call.Fits, Call.item, BufArg.bytes]
  exact ⟨by decide, hfit, read_returns_items_since (by decide) (by decide) _ hfit⟩

end MemoryLeak.Shared
