import MemoryLeak.Log.Levels
import MemoryLeak.Runs
import Mathlib.Data.List.Perm.Basic

/-!
# The log file

The log file is opened, replaced and closed by any number of threads, while others set levels and
log messages. Each of these calls is a sequence of sections under `log_file_mutex`, and a section
is one step here, so that a run is any interleaving of the calls. `vlog_set_log_file` opens the
new file before its first section and installs it in its last one: in between it alone knows the
new descriptor.
-/
namespace MemoryLeak.Log
open MemoryLeak.CBytes MemoryLeak.CText MemoryLeak.Runs

/-- The functions of `async-append.h`, which is not part of the repository. `α` is the state of all
writers, and no outcome that of a call which is not allowed. -/
structure AsyncAppend (α ω : Type) where
  create : α → ℕ → Option ω × α
  write : α → ω → Bytes → Option α
  flush : α → ω → Option α
  destroy : α → Option ω → Option α

/-- What the log relies on, `created a w fd` saying that `w` was created on `fd` and has not been
destroyed: such a writer may be written to, flushed and destroyed, also after its descriptor was
closed, and so may null be destroyed. `async_append_create` may return null. -/
structure AsyncAppend.Lawful {α ω : Type} (A : AsyncAppend α ω) (created : α → ω → ℕ → Prop) :
    Prop where
  create : ∀ a fd w, (A.create a fd).1 = some w → created (A.create a fd).2 w fd
  write : ∀ a w fd text, created a w fd → ∃ a', A.write a w text = some a' ∧ created a' w fd
  flush : ∀ a w fd, created a w fd → ∃ a', A.flush a w = some a' ∧ created a' w fd
  destroy : ∀ a w fd, created a w fd → ∃ a', A.destroy a (some w) = some a'
  destroyNull : ∀ a, ∃ a', A.destroy a none = some a'

/-- A call of `vlog_set_log_file` that has opened its file. -/
structure Opened where
  fd : ℕ
  newLogFileName : Bytes

/-- What `log_file_mutex` protects, the writers, the calls that have opened a file, and the
descriptors of log files that are open. -/
structure LogState (α ω : Type) where
  modules : List VlogModule
  logFd : Option ℕ
  logFileName : Option Bytes
  logWriter : Option ω
  logAsync : Bool
  async : α
  opened : List Opened
  openFds : List ℕ
  /-- The direct writes to log files so far. -/
  written : List (ℕ × Bytes)

variable {α ω : Type}

/-- Before any constructor has run. -/
def logStart (a : α) : LogState α ω := ⟨[], none, none, none, false, a, [], [], []⟩

def LogState.fileOpen (s : LogState α ω) : Bool := s.logFd.isSome

/-- A step of some thread. -/
inductive LogEvent where
  /-- `vlog_insert_module` of a module as `VLOG_DEFINE_THIS_MODULE` makes it. -/
  | insertModule (name : Bytes)
  /-- `set_destination_level`. -/
  | setDestinationLevel (d : VlogDestination) (module : Option ℕ) (level : VlogLevel)
  /-- `vlog_set_log_file` opens its file. -/
  | openFile (new : Opened)
  /-- It finds that the file is the one already open. -/
  | sameFile (k : ℕ)
  /-- It installs the file. -/
  | install (k : ℕ)
  /-- `vlog_unixctl_close`. -/
  | close
  | enableAsync
  | disableAsync
  /-- The last section of `vlog_valist` with the text for the file. -/
  | write (level : VlogLevel) (text : Bytes)
  /-- `vlog_fatal_valist` and `vlog_abort_valist`, which turn the console of a module off. -/
  | fatal (module : ℕ)

/-- `close(fd)`. -/
def closeFd (fd : ℕ) (s : LogState α ω) : Option (LogState α ω) :=
  if fd ∈ s.openFds then some { s with openFds := s.openFds.erase fd } else none

/-- `LIST_FOR_EACH (mp, list, &vlog_modules) update_min_level(mp)`. -/
def updateMinLevels (s : LogState α ω) : LogState α ω :=
  { s with modules := s.modules.map (updateMinLevel s.fileOpen) }

section Step

variable (A : AsyncAppend α ω)

/-- `if (log_fd >= 0) { close(log_fd); async_append_destroy(log_writer); }`; the pointer is left as
it was. -/
def closeLogFd (s : LogState α ω) : Option (LogState α ω) :=
  match s.logFd with
  | none => some s
  | some fd =>
    (closeFd fd s).bind fun s =>
      (A.destroy s.async s.logWriter).map fun a => { s with async := a }

/-- `log_writer = async_append_create(fd)`. -/
def createWriter (fd : ℕ) (s : LogState α ω) : LogState α ω :=
  { s with logWriter := (A.create s.async fd).1, async := (A.create s.async fd).2 }

/-- The last section of `vlog_set_log_file`. -/
def installFile (new : Opened) (s : LogState α ω) : Option (LogState α ω) :=
  (closeLogFd A s).map fun s =>
    let s := { s with logFileName := some new.newLogFileName, logFd := some new.fd }
    updateMinLevels (if s.logAsync then createWriter A new.fd s else s)

/-- The last section of `vlog_valist`: through the writer if there is one. -/
def writeFile (level : VlogLevel) (text : Bytes) (s : LogState α ω) : Option (LogState α ω) :=
  match s.logFd, s.logWriter with
  | none, _ => some s
  | some _, some w =>
    (A.write s.async w text).bind fun a =>
      (if level = .emer then A.flush a w else some a).map fun a => { s with async := a }
  | some fd, none =>
    if fd ∈ s.openFds then some { s with written := s.written ++ [(fd, text)] } else none

/-- One step; `none` where a descriptor or a writer is used that is not there. -/
def logStep (s : LogState α ω) : LogEvent → Option (LogState α ω)
  | .insertModule name => some { s with modules := s.modules ++ [defineThisModule name] }
  | .setDestinationLevel d module level =>
    some { s with modules := setDestinationLevel s.fileOpen d module level s.modules }
  | .openFile new => some { s with opened := s.opened ++ [new], openFds := s.openFds ++ [new.fd] }
  | .sameFile k =>
    s.opened[k]?.bind fun new => closeFd new.fd { s with opened := s.opened.eraseIdx k }
  | .install k =>
    s.opened[k]?.bind fun new => installFile A new { s with opened := s.opened.eraseIdx k }
  | .close =>
    (closeLogFd A s).map fun s =>
      if s.logFd.isSome then updateMinLevels { s with logFd := none, logWriter := none } else s
  | .enableAsync =>
    let s := { s with logAsync := true }
    match s.logFd, s.logWriter with
    | some fd, none => some (createWriter A fd s)
    | _, _ => some s
  | .disableAsync =>
    (A.destroy s.async s.logWriter).map fun a =>
      { s with logAsync := false, async := a, logWriter := none }
  | .write level text => writeFile A level text s
  | .fatal i =>
    some { s with modules :=
      s.modules.modify i fun m => { m with levels := Function.update m.levels .console .off } }

end Step

/-- What the kernel and the threads can do: a new descriptor is not in use, and only a call that
has opened a file goes on with it. A call that closes its own file compared it in an earlier
section, so that the log file may be another by then, or closed. -/
def Possible (s : LogState α ω) : LogEvent → Prop
  | .openFile new => new.fd ∉ s.openFds
  | .sameFile k => k < s.opened.length
  | .install k => k < s.opened.length
  | _ => True

/-! ### The invariant -/

/-- Every open descriptor is the log file's or that of one call, and of one only. -/
structure FilesOwned (s : LogState α ω) : Prop where
  perm : s.openFds.Perm (s.logFd.toList ++ s.opened.map Opened.fd)
  nodup : s.openFds.Nodup

/-- A writer is there only while writes are asynchronous and the log file is open, and is on it. -/
def WriterFits (created : α → ω → ℕ → Prop) (s : LogState α ω) : Prop :=
  ∀ w ∈ s.logWriter, s.logAsync = true ∧ ∃ fd, s.logFd = some fd ∧ created s.async w fd

/-- The guard of the macros lets every message through that some destination outputs. -/
def LosesNone (fileOpen : Bool) (m : VlogModule) : Prop :=
  ∀ level, Outputs fileOpen m level → level ≤ m.minLevel

/-- What concerns the files alone. -/
structure FileInv (created : α → ω → ℕ → Prop) (s : LogState α ω) : Prop where
  files : FilesOwned s
  writer : WriterFits created s
  named : s.logFd.isSome → s.logFileName.isSome

theorem fileInv_start (created : α → ω → ℕ → Prop) (a : α) : FileInv created (logStart a) where
  files := ⟨List.Perm.nil, List.nodup_nil⟩
  writer := by simp [WriterFits, logStart]
  named := by simp [logStart]

/-! ### The modules after a step -/

theorem mem_setDestinationLevel {fileOpen : Bool} {d : VlogDestination} {module : Option ℕ}
    {level : VlogLevel} {modules : List VlogModule} {m : VlogModule}
    (h : m ∈ setDestinationLevel fileOpen d module level modules) :
    m ∈ modules ∨ ∃ m₀, m = setLevel fileOpen d level m₀ := by
  unfold setDestinationLevel at h
  cases module with
  | none =>
    obtain ⟨m₀, _, rfl⟩ := List.mem_map.mp h
    exact Or.inr ⟨m₀, rfl⟩
  | some i =>
    obtain ⟨j, hj⟩ := List.mem_iff_getElem?.mp h
    rw [List.getElem?_modify, Option.map_eq_map, Option.map_eq_some_iff] at hj
    obtain ⟨m₀, hm₀, rfl⟩ := hj
    by_cases hij : i = j
    · rw [if_pos hij]
      exact Or.inr ⟨m₀, rfl⟩
    · rw [if_neg hij]
      exact Or.inl (List.mem_of_getElem? hm₀)

/-- The console of a module is turned off, and its cache is left. -/
def consoleOff (m : VlogModule) : VlogModule :=
  { m with levels := Function.update m.levels .console .off }

section Modules

variable {A : AsyncAppend α ω}

/-- Where a module after a step comes from: it is as it was, its cache was filled, it is new, or
its console was turned off. -/
inductive ModuleAfter (s s' : LogState α ω) (e : LogEvent) (m : VlogModule) : Prop where
  | same (hm : m ∈ s.modules) (hopen : s'.fileOpen = s.fileOpen)
  | filled (m₀ : VlogModule) (hm : m = updateMinLevel s'.fileOpen m₀)
  | new (name : Bytes) (hm : m = defineThisModule name)
  | fatal (i : ℕ) (he : e = .fatal i) (m₀ : VlogModule) (hm₀ : m₀ ∈ s.modules)
      (hm : m = consoleOff m₀) (hopen : s'.fileOpen = s.fileOpen)

theorem closeFd_eq {fd : ℕ} {s s' : LogState α ω} (h : closeFd fd s = some s') :
    s' = { s with openFds := s.openFds.erase fd } := by
  rw [closeFd] at h
  split_ifs at h
  exact (Option.some.inj h).symm

theorem closeLogFd_eq {s s' : LogState α ω} (h : closeLogFd A s = some s') :
    ∃ fds a, s' = { s with openFds := fds, async := a } := by
  rw [closeLogFd] at h
  rcases Option.eq_none_or_eq_some s.logFd with hfd | ⟨fd, hfd⟩
  · simp only [hfd, Option.some.injEq] at h
    exact ⟨s.openFds, s.async, h.symm⟩
  · simp only [hfd, Option.bind_eq_some_iff, Option.map_eq_some_iff] at h
    obtain ⟨t, ht, a, -, rfl⟩ := h
    exact ⟨s.openFds.erase fd, a, by rw [closeFd_eq ht]⟩

theorem writeFile_eq {level : VlogLevel} {text : Bytes} {s s' : LogState α ω}
    (h : writeFile A level text s = some s') :
    ∃ a ws, s' = { s with async := a, written := ws } := by
  rcases Option.eq_none_or_eq_some s.logFd with hfd | ⟨fd, hfd⟩
  · simp only [writeFile, hfd, Option.some.injEq] at h
    exact ⟨s.async, s.written, h ▸ rfl⟩
  · rcases Option.eq_none_or_eq_some s.logWriter with hw | ⟨w, hw⟩
    · simp only [writeFile, hfd, hw] at h
      split_ifs at h
      exact ⟨s.async, s.written ++ [(fd, text)], by rw [← Option.some.inj h, hfd, hw]⟩
    · simp only [writeFile, hfd, hw] at h
      obtain ⟨a, -, hflush⟩ := Option.bind_eq_some_iff.mp h
      obtain ⟨a', -, rfl⟩ := Option.map_eq_some_iff.mp hflush
      exact ⟨a', s.written, by rw [hfd, hw]⟩

theorem logStep_modules {s s' : LogState α ω} {e : LogEvent} (h : logStep A s e = some s')
    {m : VlogModule} (hm : m ∈ s'.modules) : ModuleAfter s s' e m := by
  have hmap : ∀ {t : LogState α ω}, s' = updateMinLevels t → ModuleAfter s s' e m := by
    rintro t rfl
    obtain ⟨m₀, _, rfl⟩ := List.mem_map.mp hm
    exact .filled m₀ rfl
  cases e with
  | insertModule name =>
    cases h
    rcases List.mem_append.mp hm with hm | hm
    · exact .same hm rfl
    · exact .new name (List.mem_singleton.mp hm)
  | setDestinationLevel d module level =>
    cases h
    rcases mem_setDestinationLevel hm with hm | ⟨m₀, rfl⟩
    · exact .same hm rfl
    · exact .filled _ rfl
  | openFile new =>
    cases h
    exact .same hm rfl
  | sameFile k =>
    obtain ⟨new, _, hclose⟩ := Option.bind_eq_some_iff.mp h
    rw [closeFd_eq hclose] at hm ⊢
    exact .same hm rfl
  | install k =>
    obtain ⟨new, _, hinstall⟩ := Option.bind_eq_some_iff.mp h
    obtain ⟨t, _, ht⟩ := Option.map_eq_some_iff.mp hinstall
    exact hmap ht.symm
  | close =>
    obtain ⟨t, hclose, ht⟩ := Option.map_eq_some_iff.mp h
    by_cases hopen : t.logFd.isSome
    · rw [if_pos hopen] at ht
      exact hmap ht.symm
    · rw [if_neg hopen] at ht
      obtain ⟨fds, a, rfl⟩ := closeLogFd_eq hclose
      rw [← ht] at hm ⊢
      exact .same hm rfl
  | enableAsync =>
    have hsame : s'.modules = s.modules ∧ s'.logFd = s.logFd := by
      simp only [logStep] at h
      split at h
      · cases h
        exact ⟨rfl, rfl⟩
      · cases h
        exact ⟨rfl, rfl⟩
    exact .same (hsame.1 ▸ hm) (congrArg Option.isSome hsame.2)
  | disableAsync =>
    obtain ⟨_, _, rfl⟩ := Option.map_eq_some_iff.mp h
    exact .same hm rfl
  | write level text =>
    obtain ⟨a, ws, rfl⟩ := writeFile_eq h
    exact .same hm rfl
  | fatal i =>
    cases h
    obtain ⟨j, hj⟩ := List.mem_iff_getElem?.mp hm
    rw [List.getElem?_modify, Option.map_eq_map, Option.map_eq_some_iff] at hj
    obtain ⟨m₀, hm₀, hm⟩ := hj
    by_cases hij : i = j
    · rw [if_pos hij] at hm
      exact .fatal i rfl m₀ (List.mem_of_getElem? hm₀) hm.symm rfl
    · rw [if_neg hij] at hm
      exact .same (hm ▸ List.mem_of_getElem? hm₀) rfl

/-! ### One step keeps the invariant -/

theorem updateMinLevel_losesNone (fileOpen : Bool) (m : VlogModule) :
    LosesNone fileOpen (updateMinLevel fileOpen m) :=
  fun level h => (updateMinLevel_cached fileOpen m level).mpr h

/-- Turning the console off only takes outputs away. -/
theorem consoleOff_losesNone {fileOpen : Bool} {m : VlogModule} (h : LosesNone fileOpen m) :
    LosesNone fileOpen (consoleOff m) := by
  rintro level ⟨d, hcounts, hlevel⟩
  by_cases hd : d = .console
  · rw [hd] at hlevel
    exact le_trans hlevel (VlogLevel.off_le _)
  · refine h level ⟨d, hcounts, ?_⟩
    change level ≤ Function.update m.levels .console .off d at hlevel
    rwa [Function.update_of_ne hd] at hlevel

theorem logStep_guard {s s' : LogState α ω} {e : LogEvent} (h : logStep A s e = some s')
    (hs : ∀ m ∈ s.modules, LosesNone s.fileOpen m) :
    ∀ m ∈ s'.modules, LosesNone s'.fileOpen m := by
  intro m hm
  cases logStep_modules h hm with
  | same hm hopen => exact hopen ▸ hs m hm
  | filled m₀ hm => exact hm ▸ updateMinLevel_losesNone _ m₀
  | new name hm => exact hm ▸ fun level h => (defineThisModule_cached _ name level).mpr h
  | fatal i he m₀ hm₀ hm hopen => exact hm ▸ hopen ▸ consoleOff_losesNone (hs m₀ hm₀)

/-- As long as no console is turned off, the cache stays exact. -/
theorem logStep_cached {s s' : LogState α ω} {e : LogEvent} (h : logStep A s e = some s')
    (he : ∀ i, e ≠ .fatal i) (hs : ∀ m ∈ s.modules, Cached s.fileOpen m) :
    ∀ m ∈ s'.modules, Cached s'.fileOpen m := by
  intro m hm
  cases logStep_modules h hm with
  | same hm hopen => exact hopen ▸ hs m hm
  | filled m₀ hm => exact hm ▸ updateMinLevel_cached _ m₀
  | new name hm => exact hm ▸ defineThisModule_cached _ name
  | fatal i hi => exact absurd hi (he i)

end Modules

section Files

variable {A : AsyncAppend α ω} {created : α → ω → ℕ → Prop}

/-- What `log_writer` points to may be destroyed. -/
theorem destroy_fits (hA : A.Lawful created) {s : LogState α ω} (h : WriterFits created s) :
    ∃ a, A.destroy s.async s.logWriter = some a := by
  cases hw : s.logWriter with
  | none => exact hA.destroyNull s.async
  | some w =>
    obtain ⟨-, fd, -, hcreated⟩ := h w hw
    exact hA.destroy s.async w fd hcreated

/-- A new writer is on its descriptor. -/
theorem createWriter_fits (hA : A.Lawful created) {s : LogState α ω} {fd : ℕ}
    (hasync : s.logAsync = true) (hfd : s.logFd = some fd) :
    WriterFits created (createWriter A fd s) :=
  fun w hw => ⟨hasync, fd, hfd, hA.create s.async fd w hw⟩

/-- Closing the log file, with `rest` the descriptors that others own. -/
theorem closeLogFd_spec (hA : A.Lawful created) {s : LogState α ω} {rest : List ℕ}
    (hperm : s.openFds.Perm (s.logFd.toList ++ rest)) (hwriter : WriterFits created s) :
    ∃ fds a, closeLogFd A s = some { s with openFds := fds, async := a } ∧ fds.Perm rest ∧
      (s.logFd = none → a = s.async) := by
  rcases Option.eq_none_or_eq_some s.logFd with hfd | ⟨fd, hfd⟩
  · have hclose : closeLogFd A s = some s := by rw [closeLogFd, hfd]
    exact ⟨s.openFds, s.async, hclose, by simpa [hfd] using hperm, fun _ => rfl⟩
  · have hmem : fd ∈ s.openFds := hperm.mem_iff.mpr (by simp [hfd])
    have hrest : (s.openFds.erase fd).Perm rest := by
      have herase := hperm.erase fd
      rwa [hfd, Option.toList_some, List.singleton_append, List.erase_cons_head] at herase
    obtain ⟨a, ha⟩ := destroy_fits hA hwriter
    refine ⟨s.openFds.erase fd, a, ?_, hrest, by simp [hfd]⟩
    simp only [closeLogFd, hfd, closeFd, if_pos hmem, Option.bind_some, ha, Option.map_some]

theorem getElem?_cons_eraseIdx {β : Type} {l : List β} {k : ℕ} {b : β} (h : l[k]? = some b) :
    l.Perm (b :: l.eraseIdx k) := by
  obtain ⟨hk, rfl⟩ := List.getElem?_eq_some_iff.mp h
  exact (List.getElem_cons_eraseIdx_perm hk).symm

/-- The descriptors with those of one call in front. -/
theorem FilesOwned.take {s : LogState α ω} (h : FilesOwned s) {k : ℕ} {new : Opened}
    (hk : s.opened[k]? = some new) :
    s.openFds.Perm (s.logFd.toList ++ new.fd :: (s.opened.eraseIdx k).map Opened.fd) := by
  refine h.perm.trans (List.Perm.append_left _ ?_)
  exact (getElem?_cons_eraseIdx hk).map Opened.fd

theorem openFile_fileInv {s : LogState α ω} (h : FileInv created s) {new : Opened}
    (hnew : new.fd ∉ s.openFds) :
    FileInv created
      { s with opened := s.opened ++ [new], openFds := s.openFds ++ [new.fd] } := by
  refine ⟨⟨?_, ?_⟩, h.writer, h.named⟩
  · rw [List.map_append, ← List.append_assoc]
    exact h.files.perm.append_right _
  · exact List.nodup_append.mpr ⟨h.files.nodup, List.nodup_singleton _, by
      intro a ha b hb
      rw [List.mem_singleton] at hb
      exact fun hab => hnew (hb ▸ hab ▸ ha)⟩

theorem sameFile_fileInv {s : LogState α ω} (h : FileInv created s) {k : ℕ} {new : Opened}
    (hk : s.opened[k]? = some new) :
    ∃ s', closeFd new.fd { s with opened := s.opened.eraseIdx k } = some s' ∧
      FileInv created s' := by
  have hperm := h.files.take hk
  have hmem : new.fd ∈ s.openFds := hperm.mem_iff.mpr (by simp)
  refine ⟨_, if_pos hmem, ⟨?_, h.files.nodup.erase _⟩, h.writer, h.named⟩
  have hfront : s.openFds.Perm
      (new.fd :: (s.logFd.toList ++ (s.opened.eraseIdx k).map Opened.fd)) :=
    hperm.trans List.perm_middle
  simpa using hfront.erase new.fd

theorem install_fileInv (hA : A.Lawful created) {s : LogState α ω} (h : FileInv created s) {k : ℕ}
    {new : Opened} (hk : s.opened[k]? = some new) :
    ∃ s', installFile A new { s with opened := s.opened.eraseIdx k } = some s' ∧
      FileInv created s' := by
  have hperm := h.files.take hk
  obtain ⟨fds, a, hclose, hfds, -⟩ :=
    closeLogFd_spec hA (s := { s with opened := s.opened.eraseIdx k }) hperm h.writer
  have hnodup : (new.fd :: (s.opened.eraseIdx k).map Opened.fd).Nodup :=
    (List.nodup_append.mp (hperm.nodup_iff.mp h.files.nodup)).2.1
  let s₁ : LogState α ω :=
    { s with
      opened := s.opened.eraseIdx k
      openFds := fds
      async := a
      logFileName := some new.newLogFileName
      logFd := some new.fd }
  have hinstall : installFile A new { s with opened := s.opened.eraseIdx k } =
      some (updateMinLevels (if s₁.logAsync then createWriter A new.fd s₁ else s₁)) := by
    rw [installFile, hclose]
    rfl
  refine ⟨_, hinstall, ?_⟩
  cases hasync : s₁.logAsync with
  | true =>
    rw [if_pos rfl]
    exact ⟨⟨hfds, hfds.nodup_iff.mpr hnodup⟩, createWriter_fits hA hasync rfl, fun _ => rfl⟩
  | false =>
    rw [if_neg Bool.false_ne_true]
    -- without asynchronous writes the pointer that is left is null
    have hnull : WriterFits created s₁ := fun w hw => by
      have hon : s₁.logAsync = true := (h.writer w hw).1
      rw [hasync] at hon
      cases hon
    exact ⟨⟨hfds, hfds.nodup_iff.mpr hnodup⟩, hnull, fun _ => rfl⟩

theorem close_fileInv (hA : A.Lawful created) {s : LogState α ω} (h : FileInv created s) :
    ∃ s', logStep A s .close = some s' ∧ FileInv created s' := by
  obtain ⟨fds, a, hclose, hfds, ha⟩ := closeLogFd_spec hA h.files.perm h.writer
  have hnodup := h.files.perm.nodup_iff.mp h.files.nodup
  have hrest : fds.Nodup := hfds.nodup_iff.mpr (List.nodup_append.mp hnodup).2.1
  simp only [logStep, hclose, Option.map_some]
  rcases Option.eq_none_or_eq_some s.logFd with hfd | ⟨fd, hfd⟩
  · refine ⟨_, rfl, ?_⟩
    rw [if_neg (by simp [hfd]), ha hfd]
    exact ⟨⟨by simpa [hfd] using hfds, hrest⟩, h.writer, h.named⟩
  · refine ⟨_, rfl, ?_⟩
    rw [if_pos (by simp [hfd])]
    exact ⟨⟨hfds, hrest⟩, by simp [WriterFits, updateMinLevels], by simp [updateMinLevels]⟩

theorem enableAsync_fileInv (hA : A.Lawful created) {s : LogState α ω} (h : FileInv created s) :
    ∃ s', logStep A s .enableAsync = some s' ∧ FileInv created s' := by
  have hkept : FileInv created { s with logAsync := true } :=
    ⟨⟨h.files.perm, h.files.nodup⟩, fun w hw => ⟨rfl, (h.writer w hw).2⟩, h.named⟩
  rcases Option.eq_none_or_eq_some s.logFd with hfd | ⟨fd, hfd⟩
  · exact ⟨{ s with logAsync := true }, by simp only [logStep, hfd], hkept⟩
  · rcases Option.eq_none_or_eq_some s.logWriter with hw | ⟨w, hw⟩
    · refine ⟨createWriter A fd { s with logAsync := true }, by simp only [logStep, hfd, hw],
        ⟨h.files.perm, h.files.nodup⟩, createWriter_fits hA rfl hfd, h.named⟩
    · exact ⟨{ s with logAsync := true }, by simp only [logStep, hfd, hw], hkept⟩

theorem disableAsync_fileInv (hA : A.Lawful created) {s : LogState α ω} (h : FileInv created s) :
    ∃ s', logStep A s .disableAsync = some s' ∧ FileInv created s' := by
  obtain ⟨a, ha⟩ := destroy_fits hA h.writer
  exact ⟨{ s with logAsync := false, async := a, logWriter := none }, by rw [logStep, ha]; rfl,
    ⟨h.files.perm, h.files.nodup⟩, by simp [WriterFits], h.named⟩

/-- Every write goes to the log file, which is open, or to the writer on it. -/
theorem write_fileInv (hA : A.Lawful created) {s : LogState α ω} (h : FileInv created s)
    (level : VlogLevel) (text : Bytes) :
    ∃ s', logStep A s (.write level text) = some s' ∧ FileInv created s' := by
  rcases Option.eq_none_or_eq_some s.logFd with hfd | ⟨fd, hfd⟩
  · exact ⟨s, by simp only [logStep, writeFile, hfd], h⟩
  · rcases Option.eq_none_or_eq_some s.logWriter with hw | ⟨w, hw⟩
    · have hmem : fd ∈ s.openFds := h.files.perm.mem_iff.mpr (by simp [hfd])
      exact ⟨{ s with written := s.written ++ [(fd, text)] },
        by simp only [logStep, writeFile, hfd, hw, if_pos hmem],
        ⟨h.files.perm, h.files.nodup⟩, h.writer, h.named⟩
    · obtain ⟨hasync, fd', hfd', hcreated⟩ := h.writer w hw
      obtain ⟨a, hwrite, ha⟩ := hA.write s.async w fd' text hcreated
      obtain ⟨a', hflush, ha'⟩ : ∃ a', (if level = .emer then A.flush a w else some a) = some a' ∧
          created a' w fd' := by
        split_ifs
        · exact hA.flush a w fd' ha
        · exact ⟨a, rfl, ha⟩
      refine ⟨{ s with async := a' }, ?_, ⟨h.files.perm, h.files.nodup⟩, ?_, h.named⟩
      · simp only [logStep, writeFile, hfd, hw, hwrite, Option.bind_some, hflush, Option.map_some]
      · intro w' hw'
        rw [show w' = w from Option.some.inj (hw'.symm.trans hw)]
        exact ⟨hasync, fd', hfd', ha'⟩

theorem logStep_fileInv (hA : A.Lawful created) {s : LogState α ω} {e : LogEvent}
    (h : FileInv created s) (he : Possible s e) :
    ∃ s', logStep A s e = some s' ∧ FileInv created s' := by
  have hget : ∀ {k}, k < s.opened.length → ∃ new, s.opened[k]? = some new :=
    fun hk => ⟨_, List.getElem?_eq_getElem hk⟩
  cases e with
  | insertModule name => exact ⟨_, rfl, ⟨h.files.perm, h.files.nodup⟩, h.writer, h.named⟩
  | setDestinationLevel d module level =>
    exact ⟨_, rfl, ⟨h.files.perm, h.files.nodup⟩, h.writer, h.named⟩
  | openFile new => exact ⟨_, rfl, openFile_fileInv h he⟩
  | sameFile k =>
    obtain ⟨new, hnew⟩ := hget he
    obtain ⟨s', hs', hinv⟩ := sameFile_fileInv h hnew
    exact ⟨s', by rw [logStep, hnew]; exact hs', hinv⟩
  | install k =>
    obtain ⟨new, hnew⟩ := hget he
    obtain ⟨s', hs', hinv⟩ := install_fileInv hA h hnew
    exact ⟨s', by rw [logStep, hnew]; exact hs', hinv⟩
  | close => exact close_fileInv hA h
  | enableAsync => exact enableAsync_fileInv hA h
  | disableAsync => exact disableAsync_fileInv hA h
  | write level text => exact write_fileInv hA h level text
  | fatal i => exact ⟨_, rfl, ⟨h.files.perm, h.files.nodup⟩, h.writer, h.named⟩

end Files

/-! ### Whole runs -/

section Run

variable {A : AsyncAppend α ω}

theorem logRun_guard {a : α} {es : List LogEvent} {s : LogState α ω}
    (hrun : run (logStep A) (logStart a) es = some s) :
    ∀ m ∈ s.modules, LosesNone s.fileOpen m :=
  run_invariant (fun s e s' hs h => logStep_guard h hs) (by simp [logStart]) hrun

/-- In every order of the sections no step uses a descriptor or a writer that is not there, each
open descriptor has one owner, a writer is on the log file, and no message that a destination
outputs is refused by the guard. Until a console is turned off, the guard is exact. -/
theorem log_file_runs {created : α → ω → ℕ → Prop} (hA : A.Lawful created) (a : α)
    {es : List LogEvent} (hes : AllSteps (logStep A) Possible (logStart a) es) :
    ∃ s, run (logStep A) (logStart a) es = some s ∧ FileInv created s ∧
      (∀ m ∈ s.modules, ∀ level, Outputs s.fileOpen m level → vlogIsEnabled m level) ∧
      ((∀ i, LogEvent.fatal i ∉ es) → ∀ m ∈ s.modules, ∀ level,
        vlogIsEnabled m level ↔ Outputs s.fileOpen m level) := by
  obtain ⟨s, hrun, hinv⟩ :=
    hes.run (fun s e hs he => logStep_fileInv hA hs he) (fileInv_start created a)
  refine ⟨s, hrun, hinv, ?_, ?_⟩
  · intro m hm level hlevel
    exact decide_eq_true (logRun_guard hrun m hm level hlevel)
  · intro hfatal m hm level
    have hcached := run_invariant_of_mem (E := fun e => ∀ i, e ≠ .fatal i)
      (fun s e s' hs he h => logStep_cached h he hs) (by simp [logStart])
      (fun e he i hei => hfatal i (by rwa [← hei])) hrun
    rw [vlogIsEnabled, decide_eq_true_iff]
    exact hcached m hm level

end Run

/-- Writers with numbers, each with the descriptor that it was created on and the texts that it has
still to write; there are none for descriptors above 5. -/
def queuedAppend : AsyncAppend (List (ℕ × ℕ × List Bytes)) ℕ where
  create a fd :=
    if fd ≤ 5 then (some a.length, a ++ [(a.length, fd, [])]) else (none, a)
  write a w text :=
    if a.any (fun x => x.1 = w) then
      some (a.map fun x => if x.1 = w then (x.1, x.2.1, x.2.2 ++ [text]) else x)
    else none
  flush a w :=
    if a.any (fun x => x.1 = w) then
      some (a.map fun x => if x.1 = w then (x.1, x.2.1, []) else x)
    else none
  destroy a w :=
    match w with
    | none => some a
    | some w => if a.any (fun x => x.1 = w) then some (a.filter fun x => x.1 ≠ w) else none

/-- A writer with a number, on a descriptor. -/
def queuedOn (a : List (ℕ × ℕ × List Bytes)) (w fd : ℕ) : Prop := ∃ texts, (w, fd, texts) ∈ a

theorem queuedOn_any {a : List (ℕ × ℕ × List Bytes)} {w fd : ℕ} (h : queuedOn a w fd) :
    a.any (fun x => x.1 = w) = true := by
  obtain ⟨texts, hmem⟩ := h
  exact List.any_eq_true.mpr ⟨_, hmem, by simp⟩

theorem queuedAppend_lawful : queuedAppend.Lawful queuedOn where
  create a fd w h := by
    simp only [queuedAppend] at h ⊢
    split_ifs at h ⊢ with hfd
    cases h
    exact ⟨[], by simp⟩
  write a w fd text h := by
    refine ⟨_, if_pos (queuedOn_any h), ?_⟩
    obtain ⟨texts, hmem⟩ := h
    exact ⟨texts ++ [text], List.mem_map.mpr ⟨_, hmem, if_pos rfl⟩⟩
  flush a w fd h := by
    refine ⟨_, if_pos (queuedOn_any h), ?_⟩
    obtain ⟨texts, hmem⟩ := h
    exact ⟨[], List.mem_map.mpr ⟨_, hmem, if_pos rfl⟩⟩
  destroy a w fd h := ⟨_, if_pos (queuedOn_any h)⟩
  destroyNull a := ⟨a, rfl⟩

/-- A file is opened and installed with asynchronous writes on, replaced by another, and
closed. -/
def fileSession : List LogEvent :=
  [.insertModule (ascii "timeval"), .enableAsync, .openFile ⟨3, ascii "a.log"⟩, .install 0,
    .write .info (ascii "first"), .openFile ⟨4, ascii "b.log"⟩,
    .setDestinationLevel .file none .dbg, .install 0, .write .emer (ascii "second"), .close]

theorem fileSession_possible :
    AllSteps (logStep queuedAppend) Possible (logStart []) fileSession := by
  simp [fileSession, AllSteps, Possible, logStep, logStart, installFile, createWriter, closeLogFd,
    closeFd, queuedAppend, updateMinLevels, writeFile]

theorem log_file_runs_sample :
    ∃ s, run (logStep queuedAppend) (logStart []) fileSession = some s ∧ FileInv queuedOn s ∧
    (∀ m ∈ s.modules, ∀ level, Outputs s.fileOpen m level → vlogIsEnabled m level) ∧
    ((∀ i, LogEvent.fatal i ∉ fileSession) → ∀ m ∈ s.modules, ∀ level,
      vlogIsEnabled m level ↔ Outputs s.fileOpen m level) :=
  log_file_runs queuedAppend_lawful [] fileSession_possible

end MemoryLeak.Log
