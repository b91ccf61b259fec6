import MemoryLeak.Notify.Traffic
import Mathlib.Algebra.GroupWithZero.Nat

/-!
# What is reported of a session

The deltas that takes hand out and the one that waits, against the largest counter that the
records of the session had. After the second record they differ by what that one lacks of
the first, and stay so.
-/
namespace MemoryLeak.Notify.Traffic
open MemoryLeak.CBytes MemoryLeak.Layout MemoryLeak.Runs

/-! ### The update of a delta -/

theorem firstUpdate_delta (d : Direction) (t r : StreamInfo) :
    (firstUpdate t r).get d.delta =
      if t.get isFirst ≠ 0 then r.get d.total else t.get d.delta := by
  unfold firstUpdate
  split_ifs with h
  · cases d with
    | up => exact Record.get_set_get _ r rfl
    | down =>
      rw [Direction.delta, Record.get_set_of_disjoint _ (by decide)]
      exact Record.get_set_get _ r rfl
  · rfl

theorem firstUpdate_isFirst (t r : StreamInfo) : (firstUpdate t r).get isFirst = 0 := by
  unfold firstUpdate
  split_ifs with h
  · rw [Record.get_set_of_disjoint _ (by decide), Record.get_set_of_disjoint _ (by decide),
      Record.get_set_self, Nat.zero_mod]
  · exact not_not.mp h

theorem updateSession_delta (d : Direction) (t : StreamInfo) {r : StreamInfo} (hr : IpEnds r) :
    (updateSession t r).get d.delta =
      if t.get isFirst ≠ 0 then r.get d.total
      else (t.get d.delta + (r.get d.total - t.get d.total)) % 256 ^ 8 := by
  have hfirst : (countTraffic download deltaDownload
      (countTraffic upload deltaUpload (stampSession t r) r) r).get isFirst = t.get isFirst := by
    rw [countTraffic_get (by decide) (by decide), countTraffic_get (by decide) (by decide),
      stampSession_get (by decide) (by decide) (by decide)]
  unfold updateSession
  dsimp only
  rw [copyTexts_get (by cases d <;> decide) _ hr,
    Record.get_set_of_disjoint _ (by cases d <;> decide), firstUpdate_delta, hfirst]
  congr 1
  cases d with
  | up =>
    rw [Direction.delta, countTraffic_get (by decide) (by decide), countTraffic_delta (by decide),
      stampSession_get (by decide) (by decide) (by decide),
      stampSession_get (by decide) (by decide) (by decide)]
    rfl
  | down =>
    rw [Direction.delta, countTraffic_delta (by decide), countTraffic_get (by decide) (by decide),
      countTraffic_get (by decide) (by decide),
      stampSession_get (by decide) (by decide) (by decide),
      stampSession_get (by decide) (by decide) (by decide)]
    rfl

theorem updateSession_isFirst (t : StreamInfo) {r : StreamInfo} (hr : IpEnds r) :
    (updateSession t r).get isFirst = 0 := by
  unfold updateSession
  dsimp only
  rw [copyTexts_get (by decide) _ hr, Record.get_set_of_disjoint _ (by decide), firstUpdate_isFirst]

/-! ### The ledger of a session -/

/-- The delta that waits in the session `k` of a table. -/
def pending (d : Direction) (k : ℕ × ℕ × ℕ × ℕ) (s : List StreamInfo) : ℕ :=
  ((s.find? fun t => key t = k).map fun t => t.get d.delta).getD 0

/-- What an event hands out of the session `k`. -/
def takenAt (d : Direction) (k : ℕ × ℕ × ℕ × ℕ) (s : List StreamInfo) : TrafficEvent → ℕ
  | .record _ _ => 0
  | .take => ((skylabTakeTrafficData s).map fun out => pending d k out.copied).getD 0

/-- All that was handed out of the session `k` in a run. -/
def taken (d : Direction) (k : ℕ × ℕ × ℕ × ℕ) : List StreamInfo → List TrafficEvent → ℕ
  | _, [] => 0
  | s, e :: es => takenAt d k s e + ((step s e).map fun next => taken d k next es).getD 0

/-- The largest counter among the records of the session `k`. -/
def largest (d : Direction) (k : ℕ × ℕ × ℕ × ℕ) : List TrafficEvent → ℕ
  | [] => 0
  | .record _ r :: es =>
    if key r = k then max (r.get d.total) (largest d k es) else largest d k es
  | .take :: es => largest d k es

/-- The condition of the table, and the session `k` is stored after the step. -/
def MeetsStored (k : ℕ × ℕ × ℕ × ℕ) (s : List StreamInfo) (e : TrafficEvent) : Prop :=
  Meets s e ∧ ∀ next, step s e = some next → ∃ t ∈ next, key t = k

instance (k : ℕ × ℕ × ℕ × ℕ) (s : List StreamInfo) (e : TrafficEvent) :
    Decidable (MeetsStored k s e) :=
  inferInstanceAs (Decidable (Meets s e ∧ ∀ next ∈ step s e, ∃ t ∈ next, key t = k))

section Ledger

variable {k : ℕ × ℕ × ℕ × ℕ} {d : Direction}

theorem largest_append (es es' : List TrafficEvent) :
    largest d k (es ++ es') = max (largest d k es) (largest d k es') := by
  induction es with
  | nil => exact (Nat.zero_max _).symm
  | cons e es ih =>
    cases e with
    | record now r =>
      rw [List.cons_append, largest, largest, ih]
      split_ifs
      · exact (Nat.max_assoc _ _ _).symm
      · rfl
    | take => rw [List.cons_append, largest, largest, ih]

theorem largest_none {es : List TrafficEvent}
    (h : ∀ now r, TrafficEvent.record now r ∈ es → key r ≠ k) : largest d k es = 0 := by
  induction es with
  | nil => rfl
  | cons e es ih =>
    have hrest := ih fun now r hr => h now r (List.mem_cons_of_mem e hr)
    cases e with
    | record now r => rw [largest, if_neg (h now r List.mem_cons_self), hrest]
    | take => rw [largest, hrest]

theorem Distinct.eq_of_key {s : List StreamInfo} (hs : Distinct s) {t t' : StreamInfo} (ht : t ∈ s)
    (ht' : t' ∈ s) (h : key t' = key t) : t' = t := by
  obtain ⟨pre, post, rfl, hpre, hpost⟩ := hs.split ht
  rcases List.mem_append.mp ht' with hin | hin
  · exact absurd h (hpre t' hin)
  · rcases List.mem_cons.mp hin with heq | hin
    · exact heq
    · exact absurd h (hpost t' hin)

theorem pending_eq {s : List StreamInfo} (hs : Distinct s) {t : StreamInfo} (ht : t ∈ s)
    (hk : key t = k) : pending d k s = t.get d.delta := by
  unfold pending
  cases hfind : s.find? fun t => key t = k with
  | none =>
    exact absurd hk (by simpa using List.find?_eq_none.mp hfind t ht)
  | some t' =>
    have hkey : key t' = k := by simpa using List.find?_some hfind
    rw [hs.eq_of_key ht (List.mem_of_find?_eq_some hfind) (hkey.trans hk.symm)]
    rfl

/-! ### One step of one session -/

/-- A record of another session may only mark this one closed. -/
theorem other_record {now : ℤ} {r t : StreamInfo} {s : List StreamInfo} (hs : Distinct s)
    (hmeets : Meets s (.record now r)) (ht : t ∈ s) (hkey : key t ≠ key r) :
    ∃ t' ∈ analyseRecord now s r, ∀ f : Field 128, isClosed.Disjoint f → t'.get f = t.get f := by
  obtain ⟨i, hi⟩ := List.mem_iff_getElem?.mp ht
  obtain ⟨t', ht', hsame⟩ := (record_step hs hmeets).2.others i t hi hkey
  refine ⟨t', List.mem_of_getElem? ht', fun f hf => ?_⟩
  rcases hsame with rfl | ⟨_, rfl⟩
  · rfl
  · exact t.get_set_of_disjoint hf 1

theorem own_record {now : ℤ} {r t : StreamInfo} {s : List StreamInfo} (hs : Distinct s)
    (hmeets : Meets s (.record now r)) (ht : t ∈ s) (hkey : key t = key r) :
    updateSession (markTimeout now t) r ∈ analyseRecord now s r := by
  obtain ⟨pre, post, rfl, hpre, _⟩ := hs.split ht
  rw [hkey] at hpre
  rw [analyseRecord_known hmeets.1 hpre hkey]
  exact List.mem_append_right _ List.mem_cons_self

/-- A session that is stored after a take was open, and has its deltas cleared. -/
theorem take_session {t : StreamInfo} {s next : List StreamInfo} (hs : Distinct s)
    (hmeets : Meets s .take) (hstep : step s .take = some next) (ht : t ∈ s)
    (hstored : ∃ x ∈ next, key x = key t) : resetDeltas t ∈ next := by
  rw [step, take_eq hmeets, Option.map_some, Option.some_inj] at hstep
  subst hstep
  obtain ⟨x, hx, hkey⟩ := hstored
  obtain ⟨t', ht', rfl⟩ := List.mem_map.mp hx
  have heq := hs.eq_of_key ht (List.mem_filter.mp ht').1 ((resetDeltas_key t').symm.trans hkey)
  exact heq ▸ hx

theorem takenAt_take {s : List StreamInfo} (hs : Distinct s) (hmeets : Meets s .take)
    {t : StreamInfo} (ht : t ∈ s) (hk : key t = k) : takenAt d k s .take = t.get d.delta := by
  rw [takenAt, take_eq hmeets]
  exact pending_eq hs ht hk

theorem resetDeltas_delta (d : Direction) (t : StreamInfo) : (resetDeltas t).get d.delta = 0 := by
  unfold resetDeltas
  cases d with
  | up =>
    rw [Direction.delta, Record.get_set_of_disjoint _ (by decide), Record.get_set_self,
      Nat.zero_mod]
  | down => rw [Direction.delta, Record.get_set_self, Nat.zero_mod]

/-- Without a record of its own a session keeps its counters, and of its deltas what is not
handed out. -/
theorem kept_step {s : List StreamInfo} {e : TrafficEvent} {t : StreamInfo} (hs : Distinct s)
    (ht : t ∈ s) (hk : key t = k) (hmeets : MeetsStored k s e)
    (hother : ∀ now r, e = .record now r → key r ≠ k) :
    ∃ next, step s e = some next ∧ Distinct next ∧ ∃ t' ∈ next, key t' = k ∧
      t'.get isFirst = t.get isFirst ∧ ∀ d : Direction, t'.get d.total = t.get d.total ∧
        takenAt d k s e + t'.get d.delta = t.get d.delta := by
  obtain ⟨hmeets, hstays⟩ := hmeets
  cases e with
  | record now r =>
    have hne : key t ≠ key r := fun h => hother now r rfl (h.symm.trans hk)
    obtain ⟨t', ht', hsame⟩ := other_record hs hmeets ht hne
    refine ⟨_, rfl, (record_step hs hmeets).1, t', ht', ?_, hsame _ (by decide), fun d => ⟨?_, ?_⟩⟩
    · rw [← hk]
      exact key_eq_of_gets fun f hf => hsame f (isClosed_disjoint_key f hf)
    · exact hsame _ (by cases d <;> decide)
    · rw [takenAt, Nat.zero_add]
      exact hsame _ (by cases d <;> decide)
  | take =>
    obtain ⟨next, hstep, hnext, _⟩ := take_step hs hmeets
    have hkept := take_session hs hmeets hstep ht (hk ▸ hstays next hstep)
    refine ⟨next, hstep, hnext, _, hkept, (resetDeltas_key t).trans hk,
      resetDeltas_get (by decide) (by decide) t, fun d => ⟨?_, ?_⟩⟩
    · exact resetDeltas_get (by cases d <;> decide) (by cases d <;> decide) t
    · rw [takenAt_take hs hmeets ht hk, resetDeltas_delta, Nat.add_zero]

/-- A record of its own: the counters are the largest so far, and the deltas as the source
has them. -/
theorem own_step {now : ℤ} {r t : StreamInfo} {s : List StreamInfo} (hs : Distinct s) (ht : t ∈ s)
    (hk : key t = k) (hmeets : MeetsStored k s (.record now r)) (hkey : key r = k) :
    ∃ next, step s (.record now r) = some next ∧ Distinct next ∧ ∃ t' ∈ next, key t' = k ∧
      t'.get isFirst = 0 ∧ ∀ d : Direction,
        t'.get d.total = max (t.get d.total) (r.get d.total) ∧
        t'.get d.delta = if t.get isFirst ≠ 0 then r.get d.total
          else (t.get d.delta + (r.get d.total - t.get d.total)) % 256 ^ 8 := by
  obtain ⟨hmeets, _⟩ := hmeets
  have hr : IpEnds r := hmeets.2 ⟨t, ht, hk.trans hkey.symm⟩
  obtain ⟨hsame, htotal⟩ := @updated_counters now t r hr
  refine ⟨_, rfl, (record_step hs hmeets).1, _, own_record hs hmeets ht (hk.trans hkey.symm),
    hsame.trans hk, updateSession_isFirst _ hr, fun d => ⟨htotal d, ?_⟩⟩
  rw [updateSession_delta d _ hr, markTimeout_get now t (by decide),
    markTimeout_get now t (by cases d <;> decide), markTimeout_get now t (by cases d <;> decide)]

/-! ### The runs of a session -/

theorem taken_append {s next : List StreamInfo} {es es' : List TrafficEvent}
    (h : run step s es = some next) :
    taken d k s (es ++ es') = taken d k s es + taken d k next es' := by
  induction es generalizing s with
  | nil =>
    cases h
    rw [List.nil_append, taken, Nat.zero_add]
  | cons e es ih =>
    obtain ⟨t, ht, hrest⟩ := Option.bind_eq_some_iff.mp h
    rw [List.cons_append, taken, taken, ht, Option.map_some, Option.map_some, Option.getD_some,
      Option.getD_some, ih hrest, Nat.add_assoc]

/-- The session of `r₀` before its second record. -/
def Waiting (r₀ : StreamInfo) (s : List StreamInfo) : Prop :=
  Distinct s ∧ ∃ t ∈ s, key t = key r₀ ∧ t.get isFirst ≠ 0 ∧
    ∀ d : Direction, t.get d.delta = 0 ∧ t.get d.total = r₀.get d.total

/-- Up to the second record nothing is handed out. -/
theorem waiting_run {r₀ : StreamInfo} {s : List StreamInfo} {es : List TrafficEvent}
    (hs : Waiting r₀ s) (h : AllSteps step (MeetsStored (key r₀)) s es)
    (hother : ∀ now r, TrafficEvent.record now r ∈ es → key r ≠ key r₀) :
    ∃ next, run step s es = some next ∧ Waiting r₀ next ∧ ∀ d, taken d (key r₀) s es = 0 := by
  induction es generalizing s with
  | nil => exact ⟨s, rfl, hs, fun _ => rfl⟩
  | cons e es ih =>
    obtain ⟨hdistinct, t, ht, hk, hfirst, hzero⟩ := hs
    obtain ⟨next, hstep, hnext, t', ht', hk', hfirst', hkept⟩ := kept_step hdistinct ht hk h.1
      fun now r he => hother now r (he ▸ List.mem_cons_self)
    have hwaiting : Waiting r₀ next := by
      refine ⟨hnext, t', ht', hk', hfirst' ▸ hfirst, fun d => ?_⟩
      have := (hkept d).2
      have := (hzero d).1
      exact ⟨by omega, (hkept d).1.trans (hzero d).2⟩
    obtain ⟨last, hrun, hlast, hnone⟩ := ih hwaiting (h.2 next hstep) fun now r hr =>
      hother now r (List.mem_cons_of_mem e hr)
    refine ⟨last, by rw [run_cons, hstep]; exact hrun, hlast, fun d => ?_⟩
    have := (hkept d).2
    have := (hzero d).1
    rw [taken, hstep, Option.map_some, Option.getD_some, hnone d]
    omega

/-- The first record of a session that is not stored. -/
theorem first_waiting {s₀ : List StreamInfo} (hs₀ : Distinct s₀) {now₀ : ℤ} {r₀ : StreamInfo}
    (hnew : ∀ t ∈ s₀, key t ≠ key r₀) (hfirst : r₀.get isFirst ≠ 0)
    (hzero : ∀ d : Direction, r₀.get d.delta = 0)
    (hmeets : MeetsStored (key r₀) s₀ (.record now₀ r₀)) :
    Waiting r₀ (analyseRecord now₀ s₀ r₀) := by
  refine ⟨(record_step hs₀ hmeets.1).1, r₀, ?_, rfl, hfirst, fun d => ⟨hzero d, rfl⟩⟩
  rw [analyseRecord_new hmeets.1.1 hnew]
  exact List.mem_append_right _ (List.mem_singleton.mpr rfl)

/-- A session from its second record on: `a` was handed out, `m` is the largest counter, and
`gap` is missing. -/
def Counting (k : ℕ × ℕ × ℕ × ℕ) (gap a m : Direction → ℕ) (s : List StreamInfo) : Prop :=
  Distinct s ∧ ∃ t ∈ s, key t = k ∧ t.get isFirst = 0 ∧
    ∀ d : Direction, a d + t.get d.delta + gap d = t.get d.total ∧ t.get d.total = m d

/-- The second record overwrites what waits: the bytes it counts less than the first are
missing. -/
theorem second_counting {now₁ : ℤ} {r₀ r₁ : StreamInfo} {s : List StreamInfo} (hs : Waiting r₀ s)
    (hmeets : MeetsStored (key r₀) s (.record now₁ r₁)) (hsecond : key r₁ = key r₀) :
    ∃ next, step s (.record now₁ r₁) = some next ∧
      Counting (key r₀) (fun d => r₀.get d.total - r₁.get d.total) (fun _ => 0)
        (fun d => max (r₀.get d.total) (r₁.get d.total)) next := by
  obtain ⟨hdistinct, t, ht, hk, hfirst, hwait⟩ := hs
  obtain ⟨next, hstep, hnext, t', ht', hk', hfirst', hcount⟩ :=
    own_step hdistinct ht hk hmeets hsecond
  refine ⟨next, hstep, hnext, t', ht', hk', hfirst', fun d => ?_⟩
  obtain ⟨htotal, hdelta⟩ := hcount d
  rw [if_pos hfirst] at hdelta
  rw [(hwait d).2] at htotal
  dsimp only
  rw [htotal, hdelta]
  omega

theorem counting_step {gap a m : Direction → ℕ} {s : List StreamInfo} {e : TrafficEvent}
    (hs : Counting k gap a m s) (hmeets : MeetsStored k s e) :
    ∃ next, step s e = some next ∧
      Counting k gap (fun d => a d + takenAt d k s e)
        (fun d => max (m d) (largest d k [e])) next := by
  obtain ⟨hdistinct, t, ht, hk, hfirst, hledger⟩ := hs
  by_cases hown : ∃ now r, e = .record now r ∧ key r = k
  · obtain ⟨now, r, rfl, hkey⟩ := hown
    obtain ⟨next, hstep, hnext, t', ht', hk', hfirst', hcount⟩ :=
      own_step hdistinct ht hk hmeets hkey
    refine ⟨next, hstep, hnext, t', ht', hk', hfirst', fun d => ?_⟩
    obtain ⟨hsum, hmax⟩ := hledger d
    obtain ⟨htotal, hdelta⟩ := hcount d
    have hr := r.get_lt d.total
    have ht' := t.get_lt d.total
    have hlen : d.total.len = 8 := by cases d <;> rfl
    rw [hlen] at hr ht'
    rw [if_neg (not_not.mpr hfirst), Nat.mod_eq_of_lt (by omega)] at hdelta
    have hmost : largest d k [.record now r] = r.get d.total := by
      rw [largest, if_pos hkey, largest, Nat.max_zero]
    have hnone : takenAt d k s (.record now r) = 0 := rfl
    dsimp only
    rw [hmost, hnone, htotal, hdelta]
    omega
  · obtain ⟨next, hstep, hnext, t', ht', hk', hfirst', hkept⟩ := kept_step hdistinct ht hk hmeets
      fun now r he hkey => hown ⟨now, r, he, hkey⟩
    have hnone : ∀ d, largest d k [e] = 0 := fun d => largest_none fun now r hr hkey =>
      hown ⟨now, r, (List.mem_singleton.mp hr).symm, hkey⟩
    refine ⟨next, hstep, hnext, t', ht', hk', hfirst'.trans hfirst, fun d => ?_⟩
    obtain ⟨hsum, hmax⟩ := hledger d
    obtain ⟨htotal, hdelta⟩ := hkept d
    dsimp only
    rw [hnone d, htotal]
    omega

theorem counting_run {gap a m : Direction → ℕ} {s : List StreamInfo} {es : List TrafficEvent}
    (hs : Counting k gap a m s) (h : AllSteps step (MeetsStored k) s es) :
    ∃ next, run step s es = some next ∧ Counting k gap (fun d => a d + taken d k s es)
      (fun d => max (m d) (largest d k es)) next := by
  induction es generalizing s a m with
  | nil =>
    refine ⟨s, rfl, ?_⟩
    have ha : (fun d => a d + taken d k s []) = a := rfl
    have hm : (fun d => max (m d) (largest d k [])) = m := by
      funext d
      exact Nat.max_zero _
    rw [ha, hm]
    exact hs
  | cons e es ih =>
    obtain ⟨next, hstep, hnext⟩ := counting_step hs h.1
    obtain ⟨last, hrun, hlast⟩ := ih hnext (h.2 next hstep)
    have ha : (fun d => a d + taken d k s (e :: es)) =
        fun d => a d + takenAt d k s e + taken d k next es := by
      funext d
      rw [taken, hstep, Option.map_some, Option.getD_some, Nat.add_assoc]
    have hm : (fun d => max (m d) (largest d k (e :: es))) =
        fun d => max (max (m d) (largest d k [e])) (largest d k es) := by
      funext d
      rw [Nat.max_assoc, ← largest_append]
      rfl
    exact ⟨last, by rw [run_cons, hstep]; exact hrun, by rw [ha, hm]; exact hlast⟩

end Ledger

/-- From its first record on, while it is stored: what was handed out of a session and what
waits make up the largest counter if and only if the second record counts no less than the
first. -/
theorem ledger_iff {s₀ : List StreamInfo} (hs₀ : Distinct s₀) {now₀ now₁ : ℤ} {r₀ r₁ : StreamInfo}
    (hnew : ∀ t ∈ s₀, key t ≠ key r₀) (hfirst : r₀.get isFirst ≠ 0)
    (hzero : ∀ d : Direction, r₀.get d.delta = 0) {before after : List TrafficEvent}
    (hbefore : ∀ now r, TrafficEvent.record now r ∈ before → key r ≠ key r₀)
    (hsecond : key r₁ = key r₀)
    (h : AllSteps step (MeetsStored (key r₀)) s₀
      (.record now₀ r₀ :: (before ++ .record now₁ r₁ :: after))) :
    ∃ s, run step s₀ (.record now₀ r₀ :: (before ++ .record now₁ r₁ :: after)) = some s ∧
      ∀ d : Direction,
        (taken d (key r₀) s₀ (.record now₀ r₀ :: (before ++ .record now₁ r₁ :: after)) +
            pending d (key r₀) s =
          largest d (key r₀) (.record now₀ r₀ :: (before ++ .record now₁ r₁ :: after)) ↔
        r₀.get d.total ≤ r₁.get d.total) := by
  obtain ⟨hmeets, hrest⟩ := h
  have hstored := first_waiting hs₀ hnew hfirst hzero hmeets
  obtain ⟨hpart, hend⟩ := (hrest _ rfl).append
  obtain ⟨s₁, hrun₁, hwaiting, hnone⟩ := waiting_run hstored hpart hbefore
  obtain ⟨hmeets₁, htail⟩ := hend s₁ hrun₁
  obtain ⟨s₂, hstep₂, hcounting⟩ := second_counting hwaiting hmeets₁ hsecond
  obtain ⟨s, hrun, hdistinct', t', ht', hk', _, hledger⟩ :=
    counting_run hcounting (htail s₂ hstep₂)
  have htotalRun : run step s₀ (.record now₀ r₀ :: (before ++ .record now₁ r₁ :: after)) =
      some s := by
    rw [run_cons, step, Option.bind_some, run_append, hrun₁, Option.bind_some, run_cons, hstep₂]
    exact hrun
  refine ⟨s, htotalRun, fun d => ?_⟩
  have htaken : taken d (key r₀) s₀ (.record now₀ r₀ :: (before ++ .record now₁ r₁ :: after)) =
      taken d (key r₀) s₂ after := by
    rw [taken, step, Option.map_some, Option.getD_some, taken_append hrun₁, hnone d, taken, hstep₂,
      Option.map_some, Option.getD_some, takenAt, takenAt]
    omega
  have hlargest : largest d (key r₀) (.record now₀ r₀ :: (before ++ .record now₁ r₁ :: after)) =
      max (max (r₀.get d.total) (r₁.get d.total)) (largest d (key r₀) after) := by
    rw [largest, if_pos rfl, largest_append, largest_none hbefore, Nat.zero_max, largest,
      if_pos hsecond, Nat.max_assoc]
  obtain ⟨hsum, hmax⟩ := hledger d
  dsimp only at hsum hmax
  rw [htaken, hlargest, pending_eq hdistinct' ht' hk']
  omega

/-- The first record of a session, with 10 bytes uploaded. -/
def firstRecord : StreamInfo := (zeroRecord.set isFirst 1).set upload 10

/-- A record of that session with `n` bytes uploaded. -/
def nextRecord (n : ℕ) : StreamInfo := zeroRecord.set upload n

theorem nextRecord_key (n : ℕ) : key (nextRecord n) = key firstRecord := by
  have hup : ∀ f ∈ keyFields, upload.Disjoint f := by decide
  have hzero : key (nextRecord n) = key zeroRecord :=
    key_eq_of_gets fun f hf => Record.get_set_of_disjoint zeroRecord (hup f hf) n
  rw [hzero]
  decide +kernel

/-- Takes before, between and behind the records of the session, and a record of another. -/
def ledgerRun : List TrafficEvent :=
  .record 0 firstRecord :: ([.take, .record 0 (zeroRecord.set pid 7)] ++
    .record 0 (nextRecord 12) ::
      [.take, .record 0 (nextRecord 20), .record 0 (nextRecord 15)])

theorem ledger_iff_sample :
    ∃ s, run step [] ledgerRun = some s ∧
      (taken .up (key firstRecord) [] ledgerRun + pending .up (key firstRecord) s =
        largest .up (key firstRecord) ledgerRun ↔
          firstRecord.get upload ≤ (nextRecord 12).get upload) ∧
      taken .up (key firstRecord) [] ledgerRun = 12 := by
  have hnone : ∀ t ∈ ([] : List StreamInfo), key t ≠ key firstRecord :=
    fun t ht => absurd ht List.not_mem_nil
  have hother : key (zeroRecord.set pid 7) ≠ key firstRecord := by decide +kernel
  have hbefore : ∀ now r, TrafficEvent.record now r ∈
      [TrafficEvent.take, .record 0 (zeroRecord.set pid 7)] → key r ≠ key firstRecord := by
    intro now r hr
    simp only [List.mem_cons, reduceCtorEq, TrafficEvent.record.injEq, List.not_mem_nil,
      or_false, false_or] at hr
    rw [hr.2]
    exact hother
  have hsteps : AllSteps step (MeetsStored (key firstRecord)) [] ledgerRun := by decide +kernel
  obtain ⟨s, hrun, hledger⟩ := ledger_iff (show Distinct [] from List.nodup_nil) hnone
    (by decide +kernel) (by intro d; cases d <;> decide +kernel) hbefore (nextRecord_key 12) hsteps
  exact ⟨s, hrun, hledger .up, by decide +kernel⟩

/-- The second record has 5 bytes: 5 are reported, and 10 were uploaded. -/
theorem first_update_loses :
    (run step [] [.record 0 firstRecord, .record 0 (nextRecord 5)]).map
        (pending .up (key firstRecord)) = some 5 ∧
      taken .up (key firstRecord) [] [.record 0 firstRecord, .record 0 (nextRecord 5)] = 0 ∧
      largest .up (key firstRecord) [.record 0 firstRecord, .record 0 (nextRecord 5)] = 10 := by
  refine ⟨?_, ?_, ?_⟩ <;> decide +kernel

/-! ### The data of a take -/

theorem mergeItem_total (d : Direction) (items : List StreamInfo) (info : StreamInfo) :
    ((mergeItem items info).map fun t => t.get d.delta).sum % 256 ^ 8 =
      ((items.map fun t => t.get d.delta).sum + info.get d.delta) % 256 ^ 8 := by
  induction items with
  | nil => simp [mergeItem]
  | cons t items ih =>
    rw [mergeItem]
    split_ifs
    · have hadd : ((t.set deltaUpload (t.get deltaUpload + info.get deltaUpload)).set deltaDownload
          (t.get deltaDownload + info.get deltaDownload)).get d.delta =
            (t.get d.delta + info.get d.delta) % 256 ^ 8 := by
        cases d with
        | up =>
          rw [Direction.delta, Record.get_set_of_disjoint _ (by decide), Record.get_set_self]
          rfl
        | down =>
          rw [Direction.delta, Record.get_set_self]
          rfl
      rw [List.map_cons, List.map_cons, List.sum_cons, List.sum_cons, hadd]
      omega
    · rw [List.map_cons, List.map_cons, List.sum_cons, List.sum_cons]
      omega

theorem foldl_mergeItem_total (d : Direction) (p items : List StreamInfo) :
    ((p.foldl mergeItem items).map fun t => t.get d.delta).sum % 256 ^ 8 =
      ((items.map fun t => t.get d.delta).sum + (p.map fun t => t.get d.delta).sum) %
        256 ^ 8 := by
  induction p generalizing items with
  | nil => rfl
  | cons info p ih =>
    have hitem := mergeItem_total d items info
    rw [List.foldl_cons, ih, List.map_cons, List.sum_cons]
    omega

/-- The data that a take returns has, over all its items, what it copied from the sessions. -/
theorem data_total (d : Direction) {s : List StreamInfo} {out : Taken}
    (h : skylabTakeTrafficData s = some out) :
    (out.data.map fun t => t.get d.delta).sum % 256 ^ 8 =
      (out.copied.map fun t => t.get d.delta).sum % 256 ^ 8 := by
  unfold skylabTakeTrafficData at h
  dsimp only at h
  split_ifs at h
  · cases h
    rfl
  · cases h
    rw [foldl_mergeItem_total, List.map_nil, List.sum_nil, Nat.zero_add]

end MemoryLeak.Notify.Traffic
