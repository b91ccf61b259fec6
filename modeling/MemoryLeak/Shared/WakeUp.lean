import MemoryLeak.Shared.ShmRegion

/-!
# Waking the reader up

Writers that pass `sendsig` and `pcid`, and one reader. An empty read leaves the mark
that the reader sleeps; a write that finds the mark hands out the process to signal.
-/
namespace MemoryLeak.Shared
open MemoryLeak.CBytes MemoryLeak.Runs

/-- A call on the channel: of a writer, or of the reader. -/
inductive ChannelCall where
  | write (errx : Bool) (data : BufArg)
  | read (errx malloc : Bool)

def ChannelCall.call (reader : ℤ) : ChannelCall → Call
  | .write errx data => .write errx data true
  | .read errx malloc => .read reader errx malloc

/-- The region, and what the writes made since the reader's last empty read have reported:
for each the process in `*pcid`, if `*sendsig` was set. -/
structure ChannelState where
  shm : ShmState
  reports : List (Option ℤ)

def channelStep (hdr : ℕ) (reader : ℤ) (s : ChannelState) (c : ChannelCall) : ChannelState × Out :=
  let r := shmStep hdr s.shm (c.call reader)
  let reports := match c, r.2 with
    | .read errx _, _ => if errx = false ∧ s.shm.p.usedData = 0 then [] else s.reports
    | .write _ _, .write o => if o.copy.isSome then s.reports ++ [o.signal] else s.reports
    | .write _ _, .read _ => s.reports
  (⟨r.1, reports⟩, r.2)

/-- The channel after calls on a fresh region. -/
def channelRun (hdr total : ℕ) (reader : ℤ) (calls : List ChannelCall) : ChannelState × List Out :=
  exec (channelStep hdr reader) ⟨.init hdr total, []⟩ calls

/-- While the reader sleeps, every write since its last empty read has named it, and there
is one if something is stored. -/
structure Signalled (hdr total : ℕ) (reader : ℤ) (s : ChannelState) : Prop where
  total_eq : s.shm.p.total = total
  used_lt : s.shm.p.usedData < 2 ^ 31
  known : s.shm.pidd reader ≠ 0 → s.shm.p.readPid = reader
  asleep : s.shm.p.sleeping = true → s.shm.p.readPid = reader ∧
    (∀ r ∈ s.reports, r = some reader) ∧ (s.reports = [] → s.shm.p.usedData = 0)

variable {hdr total : ℕ} {reader : ℤ}

theorem signalled_init (hdr total : ℕ) (reader : ℤ) :
    Signalled hdr total reader ⟨.init hdr total, []⟩ where
  total_eq := rfl
  used_lt := by simp [ShmState.init, nttOpenShm]
  known := fun h => absurd rfl h
  asleep := fun h => by cases h

/-- A write that stores reports the reader's process exactly when the reader sleeps, and leaves
the buffer used. -/
theorem nttWriteShm_reports (hhdr : hdr < total) (htotal : total < 2 ^ 31) {p : ListSharedData}
    (hp : p.total = total) (hused : p.usedData < 2 ^ 31) {data : BufArg} (hne : data.bytes ≠ []) :
    ∃ q o, nttWriteShm hdr false p data true = (q, o) ∧ o.copy.isSome = true ∧
      o.signal = (if p.sleeping then some p.readPid else none) ∧ q.total = p.total ∧
      q.readPid = p.readPid ∧ q.sleeping = p.sleeping ∧ q.usedData ≠ 0 ∧ q.usedData < 2 ^ 31 := by
  cases hptr : data.ptr with
  | none => simp [BufArg.bytes, hptr] at hne
  | some b =>
    have hlen := BufArg.length_bytes hptr
    have hpos : 0 < data.bytes.length := List.length_pos_iff.mpr hne
    have hint := data.int
    have hn : ¬ data.n < 1 := by omega
    have hroom : noRoom hdr p data.n.toNat = decide (total ≤ data.n.toNat + p.usedData + hdr) := by
      rw [noRoom, hp, Nat.mod_eq_of_lt (by omega)]
    simp only [nttWriteShm, hptr, if_neg hn, hroom]
    refine ⟨_, _, rfl, rfl, ?_, rfl, rfl, rfl, ?_, ?_⟩
    · cases p.sleeping <;> rfl
    all_goals
      by_cases hfull : total ≤ data.n.toNat + p.usedData + hdr
      · simp only [decide_eq_true hfull, if_true]
        omega
      · simp only [decide_eq_false hfull, Bool.false_eq_true, if_false]
        omega

/-- A read finds the buffer empty and marks that the reader sleeps, or fails, or hands the data
out and clears the mark. -/
theorem nttReadShm_marks (errx malloc : Bool) {p : ListSharedData} (hlt : p.usedData < 2 ^ 31)
    (pidd getpid : ℤ) :
    ∃ q o, nttReadShm errx malloc p pidd getpid =
        ((q, if pidd = 0 then getpid else pidd), o) ∧ q.total = p.total ∧
      q.readPid = (if pidd = 0 then getpid else p.readPid) ∧
      ((errx = false ∧ p.usedData = 0) ∧ q.usedData = 0 ∧ q.sleeping = true ∧ o.bytes = [] ∨
        ¬ (errx = false ∧ p.usedData = 0) ∧ q.usedData = p.usedData ∧ q.sleeping = p.sleeping ∧
          o.bytes = [] ∨
        ¬ (errx = false ∧ p.usedData = 0) ∧ q.usedData = 0 ∧ q.sleeping = false) := by
  obtain ⟨q, hq, htotal, hpid, hused, hsleeping⟩ : ∃ q,
      (if pidd = 0 then { p with readPid := getpid } else p) = q ∧ q.total = p.total ∧
      q.readPid = (if pidd = 0 then getpid else p.readPid) ∧ q.usedData = p.usedData ∧
      q.sleeping = p.sleeping := by
    by_cases h : pidd = 0
    · exact ⟨_, rfl, by simp [h]⟩
    · exact ⟨_, rfl, by simp [h]⟩
  simp only [nttReadShm, decide_eq_true_eq, hq, hused, toInt_of_lt hlt]
  cases errx with
  | true => exact ⟨q, _, rfl, htotal, hpid, Or.inr (Or.inl ⟨by simp, hused, hsleeping, rfl⟩)⟩
  | false =>
    by_cases hzero : p.usedData = 0
    · have hn : (p.usedData : ℤ) < 1 := by omega
      simp only [Bool.false_eq_true, if_false, if_pos hn]
      exact ⟨_, _, rfl, htotal, hpid, Or.inl ⟨⟨trivial, hzero⟩, hzero, rfl, rfl⟩⟩
    · have hn : ¬ (p.usedData : ℤ) < 1 := by omega
      cases malloc with
      | false =>
        simp only [Bool.false_eq_true, if_false, if_neg hn, Bool.not_false, if_true]
        exact ⟨q, _, rfl, htotal, hpid, Or.inr (Or.inl ⟨by simp [hzero], hused, hsleeping, rfl⟩)⟩
      | true =>
        simp only [Bool.false_eq_true, if_false, if_neg hn, Bool.not_true]
        exact ⟨_, _, rfl, htotal, hpid, Or.inr (Or.inr ⟨by simp [hzero], rfl, rfl⟩)⟩

/-- A call of a writer keeps the sleeper signalled. -/
theorem signalled_write (hhdr : hdr < total) (htotal : total < 2 ^ 31) {s : ChannelState}
    (hs : Signalled hdr total reader s) (errx : Bool) (data : BufArg) :
    Signalled hdr total reader (channelStep hdr reader s (.write errx data)).1 := by
  by_cases hitem : (Call.write errx data true).item = []
  · obtain ⟨rs, hw⟩ := nttWriteShm_keeps hdr s.shm.p hitem
    simp only [channelStep, ChannelCall.call, shmStep, hw, Option.isSome_none, Bool.false_eq_true,
      if_false]
    exact hs
  · cases errx with
    | true => exact absurd rfl hitem
    | false =>
      obtain ⟨q, o, hw, hcopy, hsignal, hq, hpid, hsleeping, hne, hlt⟩ :=
        nttWriteShm_reports hhdr htotal hs.total_eq hs.used_lt hitem
      simp only [channelStep, ChannelCall.call, shmStep, hw, hcopy, if_true]
      constructor
      · exact hq.trans hs.total_eq
      · exact hlt
      · exact fun h => hpid.trans (hs.known h)
      · intro h
        rw [hsleeping] at h
        obtain ⟨hreader, hreports, _⟩ := hs.asleep h
        rw [h, if_pos rfl, hreader] at hsignal
        refine ⟨hpid.trans hreader, ?_, by simp⟩
        intro r hr
        rcases List.mem_append.mp hr with hr | hr
        · exact hreports r hr
        · rw [List.mem_singleton.mp hr, hsignal]

/-- So does a call of the reader. -/
theorem signalled_read {s : ChannelState} (hs : Signalled hdr total reader s) (errx malloc : Bool) :
    Signalled hdr total reader (channelStep hdr reader s (.read errx malloc)).1 := by
  obtain ⟨q, o, hr, hq, hpid, hcases⟩ :=
    nttReadShm_marks errx malloc hs.used_lt (s.shm.pidd reader) reader
  have hreader : q.readPid = reader := by
    by_cases h : s.shm.pidd reader = 0
    · rw [hpid, if_pos h]
    · rw [hpid, if_neg h, hs.known h]
  simp only [channelStep, ChannelCall.call, shmStep, hr]
  rcases hcases with ⟨hempty, hused, -⟩ | ⟨hne, hused, hsleeping, -⟩ | ⟨-, hused, hsleeping⟩
  · rw [if_pos hempty]
    exact ⟨hq.trans hs.total_eq, by rw [hused]; decide, fun _ => hreader,
      fun _ => ⟨hreader, by simp, fun _ => hused⟩⟩
  · rw [if_neg hne]
    refine ⟨hq.trans hs.total_eq, by rw [hused]; exact hs.used_lt, fun _ => hreader, fun h => ?_⟩
    obtain ⟨_, hreports, hnil⟩ := hs.asleep (hsleeping.symm.trans h)
    exact ⟨hreader, hreports, fun h => hused.trans (hnil h)⟩
  · refine ⟨hq.trans hs.total_eq, by rw [hused]; decide, fun _ => hreader, fun h => ?_⟩
    rw [hsleeping] at h
    cases h

theorem channelRun_signalled (hhdr : hdr < total) (htotal : total < 2 ^ 31)
    (calls : List ChannelCall) :
    Signalled hdr total reader (channelRun hdr total reader calls).1 := by
  refine exec_invariant (V := fun _ => True) (fun s c hs _ => ?_) (signalled_init hdr total reader)
    fun _ _ => trivial
  cases c with
  | write errx data => exact signalled_write hhdr htotal hs errx data
  | read errx malloc => exact signalled_read hs errx malloc

/-- A sleeping reader with data pending has been signalled by every write since its last
empty read, of which there is one; a read that returns data clears the mark. -/
theorem sleeping_reader_signalled (hhdr : hdr < total) (htotal : total < 2 ^ 31) (reader : ℤ)
    (calls : List ChannelCall) :
    let s := (channelRun hdr total reader calls).1
    (s.shm.p.usedData ≠ 0 → s.shm.p.sleeping = true →
      s.reports ≠ [] ∧ ∀ r ∈ s.reports, r = some s.shm.p.readPid) ∧
    ∀ errx malloc o, (shmStep hdr s.shm (.read reader errx malloc)).2 = .read o → o.bytes ≠ [] →
      (shmStep hdr s.shm (.read reader errx malloc)).1.p.sleeping = false := by
  intro s
  have hs : Signalled hdr total reader s := channelRun_signalled hhdr htotal calls
  constructor
  · intro hne hsleeping
    obtain ⟨hreader, hreports, hnil⟩ := hs.asleep hsleeping
    exact ⟨fun h => hne (hnil h), hreader ▸ hreports⟩
  · intro errx malloc o hout hbytes
    obtain ⟨q, o', hr, _, _, hcases⟩ :=
      nttReadShm_marks errx malloc hs.used_lt (s.shm.pidd reader) reader
    simp only [shmStep, hr, Out.read.injEq] at hout ⊢
    subst hout
    rcases hcases with ⟨_, _, _, hnil⟩ | ⟨_, _, _, hnil⟩ | ⟨_, _, hsleeping⟩
    · exact absurd hnil hbytes
    · exact absurd hnil hbytes
    · exact hsleeping

theorem sleeping_reader_signalled_sample :
    let calls : List ChannelCall := [.read false true,
      .write false (.ofBytes [1, 2, 3] (by decide))]
    let s := (channelRun 288 300 7 calls).1
    (288 < 300 ∧ 300 < 2 ^ 31 ∧ s.shm.p.usedData ≠ 0 ∧ s.shm.p.sleeping = true) ∧
    (s.shm.p.usedData ≠ 0 → s.shm.p.sleeping = true →
      s.reports ≠ [] ∧ ∀ r ∈ s.reports, r = some s.shm.p.readPid) ∧
    ∀ errx malloc o, (shmStep 288 s.shm (.read 7 errx malloc)).2 = .read o → o.bytes ≠ [] →
      (shmStep 288 s.shm (.read 7 errx malloc)).1.p.sleeping = false := by
  intro calls s
  exact ⟨by decide +kernel, sleeping_reader_signalled (by decide) (by decide) 7 calls⟩

end MemoryLeak.Shared
