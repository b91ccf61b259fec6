import MemoryLeak.CText
import Mathlib.Order.Lattice

/-!
# Levels of the log

The levels that each log module keeps for the three destinations, their names, and the words
of a level specification. The least severe level that any destination of a module outputs is
kept beside them, so that a message can be refused without looking at the destinations.
-/
namespace MemoryLeak.Log
open MemoryLeak.CBytes MemoryLeak.CText

/-! ### VLOG_LEVELS, VLOG_DESTINATIONS -/

/-- `enum vlog_level`. -/
inductive VlogLevel where
  | off
  | emer
  | err
  | warn
  | info
  | dbg
  deriving Repr

namespace VlogLevel

/-- The value of the enumerator. -/
def val : VlogLevel → ℕ
  | off => 0
  | emer => 1
  | err => 2
  | warn => 3
  | info => 4
  | dbg => 5

theorem val_injective : Function.Injective val := by
  intro a b h
  cases a <;> cases b <;> first | rfl | cases h

instance : LinearOrder VlogLevel := LinearOrder.lift' val val_injective

theorem off_le (l : VlogLevel) : off ≤ l := Nat.zero_le l.val

end VlogLevel

/-- The levels in their order. -/
def vlogLevels : List VlogLevel := [.off, .emer, .err, .warn, .info, .dbg]

/-- `level_names`. -/
def levelName : VlogLevel → Bytes
  | .off => ascii "OFF"
  | .emer => ascii "EMER"
  | .err => ascii "ERR"
  | .warn => ascii "WARN"
  | .info => ascii "INFO"
  | .dbg => ascii "DBG"

/-- `syslog_levels`, as RFC 5424 numbers them. -/
def syslogLevel : VlogLevel → ℕ
  | .off => 1
  | .emer => 1
  | .err => 3
  | .warn => 4
  | .info => 5
  | .dbg => 7

/-- `enum vlog_destination`; `VLF_ANY_DESTINATION` is the missing one. -/
inductive VlogDestination where
  | syslog
  | console
  | file
  deriving DecidableEq, Repr

/-- The destinations in their order. -/
def vlogDestinations : List VlogDestination := [.syslog, .console, .file]

theorem mem_vlogDestinations (d : VlogDestination) : d ∈ vlogDestinations := by
  cases d <;> decide

/-- `destinations[destination].name`. -/
def destinationName : VlogDestination → Bytes
  | .syslog => ascii "SYSLOG"
  | .console => ascii "CONSOLE"
  | .file => ascii "FILE"

/-! ### Names -/

/-- `search_name_array`. -/
def searchNameArray (target : Bytes) (names : List Bytes) : ℕ :=
  names.findIdx fun name => strcaseEq name target

/-- `vlog_get_level_val`, `none` for `VLL_N_LEVELS`. -/
def vlogGetLevelVal (name : Bytes) : Option VlogLevel :=
  vlogLevels[searchNameArray name (vlogLevels.map levelName)]?

/-- `vlog_get_destination_val`, `none` for `VLF_N_DESTINATIONS`. -/
def vlogGetDestinationVal (name : Bytes) : Option VlogDestination :=
  vlogDestinations[searchNameArray name (vlogDestinations.map destinationName)]?

theorem vlogGetLevelVal_levelName (l : VlogLevel) : vlogGetLevelVal (levelName l) = some l := by
  cases l <;> decide

theorem vlogGetDestinationVal_destinationName (d : VlogDestination) :
    vlogGetDestinationVal (destinationName d) = some d := by
  cases d <;> decide

/-! ### Modules -/

/-- `struct vlog_module`, with the text of its name. -/
structure VlogModule where
  name : Bytes
  levels : VlogDestination → VlogLevel
  minLevel : VlogLevel
  honorRateLimits : Bool

/-- `VLOG_DEFINE_THIS_MODULE`. -/
def defineThisModule (name : Bytes) : VlogModule := ⟨name, fun _ => .info, .info, true⟩

/-- `vlog_module_from_name`: the place of the module in the list. -/
def vlogModuleFromName (modules : List VlogModule) (name : Bytes) : Option ℕ :=
  modules.findIdx? fun mp => strcaseEq name mp.name

/-- The file counts only while it is open. -/
def Counts (fileOpen : Bool) (d : VlogDestination) : Prop := fileOpen = true ∨ d ≠ .file

instance (fileOpen : Bool) (d : VlogDestination) : Decidable (Counts fileOpen d) :=
  inferInstanceAs (Decidable (_ ∨ _))

/-- One turn of the loop of `update_min_level`. -/
def minTurn (fileOpen : Bool) (m : VlogModule) (min : VlogLevel) (d : VlogDestination) :
    VlogLevel :=
  if Counts fileOpen d ∧ min < m.levels d then m.levels d else min

/-- `update_min_level`, `fileOpen` telling whether `log_fd >= 0`. -/
def updateMinLevel (fileOpen : Bool) (m : VlogModule) : VlogModule :=
  { m with minLevel := vlogDestinations.foldl (minTurn fileOpen m) .off }

/-- `module->levels[destination] = level; update_min_level(module)`. -/
def setLevel (fileOpen : Bool) (d : VlogDestination) (level : VlogLevel) (m : VlogModule) :
    VlogModule :=
  updateMinLevel fileOpen { m with levels := Function.update m.levels d level }

/-- `set_destination_level`; without a module, for all of them. -/
def setDestinationLevel (fileOpen : Bool) (d : VlogDestination) (module : Option ℕ)
    (level : VlogLevel) (modules : List VlogModule) : List VlogModule :=
  match module with
  | none => modules.map (setLevel fileOpen d level)
  | some i => modules.modify i (setLevel fileOpen d level)

/-- `vlog_set_levels`; without a destination, for all of them. -/
def vlogSetLevels (fileOpen : Bool) (module : Option ℕ) (destination : Option VlogDestination)
    (level : VlogLevel) (modules : List VlogModule) : List VlogModule :=
  match destination with
  | none =>
    vlogDestinations.foldl (fun ms d => setDestinationLevel fileOpen d module level ms) modules
  | some d => setDestinationLevel fileOpen d module level modules

/-- `vlog_is_enabled`, and the guard of the macro `VLOG`. -/
def vlogIsEnabled (m : VlogModule) (level : VlogLevel) : Bool := decide (level ≤ m.minLevel)

/-- Some destination would output a message of the level. -/
def Outputs (fileOpen : Bool) (m : VlogModule) (level : VlogLevel) : Prop :=
  ∃ d, Counts fileOpen d ∧ level ≤ m.levels d

/-- The cached level is the least severe one that is output. -/
def Cached (fileOpen : Bool) (m : VlogModule) : Prop :=
  ∀ level, level ≤ m.minLevel ↔ Outputs fileOpen m level

/-- The loop keeps the greatest level seen so far. -/
theorem le_foldl_minTurn (fileOpen : Bool) (m : VlogModule) (level : VlogLevel)
    (ds : List VlogDestination) (min : VlogLevel) :
    level ≤ ds.foldl (minTurn fileOpen m) min ↔
      level ≤ min ∨ ∃ d ∈ ds, Counts fileOpen d ∧ level ≤ m.levels d := by
  induction ds generalizing min with
  | nil => simp
  | cons d ds ih =>
    rw [List.foldl_cons, ih, List.exists_mem_cons_iff, ← or_assoc]
    apply or_congr_left
    rw [minTurn]
    by_cases hcounts : Counts fileOpen d
    · by_cases hlt : min < m.levels d
      · rw [if_pos ⟨hcounts, hlt⟩]
        exact ⟨fun h => Or.inr ⟨hcounts, h⟩, fun h => h.elim (fun h => h.trans hlt.le) And.right⟩
      · rw [if_neg fun h => hlt h.2]
        exact ⟨Or.inl, fun h => h.elim id fun h => h.2.trans (not_lt.mp hlt)⟩
    · rw [if_neg fun h => hcounts h.1]
      exact ⟨Or.inl, fun h => h.elim id fun h => absurd h.1 hcounts⟩

/-- `update_min_level` fills the cache. -/
theorem updateMinLevel_cached (fileOpen : Bool) (m : VlogModule) :
    Cached fileOpen (updateMinLevel fileOpen m) := by
  intro level
  change level ≤ vlogDestinations.foldl (minTurn fileOpen m) .off ↔ _
  rw [le_foldl_minTurn]
  constructor
  · rintro (hoff | ⟨d, _, hd⟩)
    · -- the least level is output by the console, which always counts
      exact ⟨.console, Or.inr (by decide), hoff.trans (VlogLevel.off_le _)⟩
    · exact ⟨d, hd⟩
  · rintro ⟨d, hd⟩
    exact Or.inr ⟨d, mem_vlogDestinations d, hd⟩

/-- A new module outputs the same with and without a file. -/
theorem defineThisModule_cached (fileOpen : Bool) (name : Bytes) :
    Cached fileOpen (defineThisModule name) := by
  intro level
  constructor
  · intro h
    exact ⟨.console, Or.inr (by decide), h⟩
  · rintro ⟨d, _, h⟩
    exact h

/-! ### What setting a level changes -/

/-- `vlog_get_level` of the module at place `i`. -/
def vlogGetLevel (modules : List VlogModule) (i : ℕ) (d : VlogDestination) : Option VlogLevel :=
  modules[i]?.map fun m => m.levels d

section SetLevels

variable (fileOpen : Bool) (module : Option ℕ) (level : VlogLevel) (modules : List VlogModule)

theorem vlogGetLevel_setDestinationLevel (d' : VlogDestination) (i : ℕ) (d : VlogDestination) :
    vlogGetLevel (setDestinationLevel fileOpen d' module level modules) i d =
      (vlogGetLevel modules i d).map fun old =>
        if (module = none ∨ module = some i) ∧ d' = d then level else old := by
  have hset : ∀ m : VlogModule, (setLevel fileOpen d' level m).levels d =
      if d' = d then level else m.levels d := by
    intro m
    change Function.update m.levels d' level d = _
    by_cases hd : d' = d
    · rw [hd, Function.update_self, if_pos rfl]
    · rw [Function.update_of_ne (Ne.symm hd), if_neg hd]
  unfold vlogGetLevel setDestinationLevel
  cases module with
  | none =>
    rw [List.getElem?_map, Option.map_map, Option.map_map]
    congr 1
    ext m
    simp [hset]
  | some j =>
    rw [List.getElem?_modify]
    by_cases hj : j = i
    · simp only [hj, if_true, Option.map_map, Option.map_eq_map, or_true, true_and, reduceCtorEq]
      congr 1
      ext m
      simp [hset]
    · simp [hj, Function.comp_def]

theorem setDestinationLevel_frame {β : Type} (f : VlogModule → β)
    (hf : ∀ m d, f (setLevel fileOpen d level m) = f m) (d : VlogDestination) :
    (setDestinationLevel fileOpen d module level modules).map f = modules.map f := by
  unfold setDestinationLevel
  cases module with
  | none => rw [List.map_map]; exact List.map_congr_left fun m _ => hf m d
  | some i =>
    apply List.ext_getElem?
    intro j
    rw [List.getElem?_map, List.getElem?_map, List.getElem?_modify]
    by_cases hij : i = j
    · simp [hij, Option.map_map, Function.comp_def, hf]
    · simp [hij]

/-- The level of every module and destination that is meant is set, and no other. -/
theorem vlogGetLevel_vlogSetLevels (destination : Option VlogDestination) (i : ℕ)
    (d : VlogDestination) :
    vlogGetLevel (vlogSetLevels fileOpen module destination level modules) i d =
      (vlogGetLevel modules i d).map fun old =>
        if (module = none ∨ module = some i) ∧ (destination = none ∨ destination = some d) then
          level
        else old := by
  cases destination with
  | some d' => simp [vlogSetLevels, vlogGetLevel_setDestinationLevel]
  | none =>
    simp only [vlogSetLevels, vlogDestinations, List.foldl_cons, List.foldl_nil,
      vlogGetLevel_setDestinationLevel, Option.map_map, true_or, and_true]
    congr 1
    ext old
    by_cases hmodule : module = none ∨ module = some i
    · cases d <;> simp [hmodule]
    · simp [hmodule]

/-- Nothing but the levels and the cache of a module is changed. -/
theorem vlogSetLevels_frame {β : Type} (f : VlogModule → β)
    (hf : ∀ m d, f (setLevel fileOpen d level m) = f m) (destination : Option VlogDestination) :
    (vlogSetLevels fileOpen module destination level modules).map f = modules.map f := by
  cases destination with
  | some d => exact setDestinationLevel_frame fileOpen module level modules f hf d
  | none =>
    simp only [vlogSetLevels, vlogDestinations, List.foldl_cons, List.foldl_nil]
    rw [setDestinationLevel_frame _ _ _ _ f hf, setDestinationLevel_frame _ _ _ _ f hf,
      setDestinationLevel_frame _ _ _ _ f hf]

theorem vlogSetLevels_names (destination : Option VlogDestination) :
    (vlogSetLevels fileOpen module destination level modules).map VlogModule.name =
      modules.map VlogModule.name :=
  vlogSetLevels_frame fileOpen module level modules _ (fun _ _ => rfl) destination

end SetLevels

/-- The lookup depends on the names alone. -/
theorem vlogModuleFromName_congr {modules modules' : List VlogModule}
    (h : modules.map VlogModule.name = modules'.map VlogModule.name) (name : Bytes) :
    vlogModuleFromName modules name = vlogModuleFromName modules' name := by
  have hfind : ∀ ms : List VlogModule, vlogModuleFromName ms name =
      (ms.map VlogModule.name).findIdx? (strcaseEq name) := by
    intro ms
    rw [List.findIdx?_map]
    rfl
  rw [hfind, hfind, h]

end MemoryLeak.Log
