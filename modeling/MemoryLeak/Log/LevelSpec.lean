import MemoryLeak.Log.Levels

/-!
# Level specifications

`vlog_set_levels_from_string` reads a list of words: each names a destination, a level or a
module, and none may be named twice. A text that begins with `PATTERN` or `FACILITY` sets the
pattern of a destination or the facility instead. What is wrong anywhere in a text changes
nothing.
-/
namespace MemoryLeak.Log
open MemoryLeak.CBytes MemoryLeak.CText

/-- The configuration a text can change, and whether `log_fd >= 0`. -/
structure LogConfig where
  modules : List VlogModule
  pattern : VlogDestination → Bytes
  logFacility : ℕ
  fileOpen : Bool

/-- The delimiters `" ,:\t"`. -/
def wordDelim (c : UInt8) : Bool := c == 32 || c == 44 || c == 58 || c == 9

/-- `vlog_facilities`. -/
def vlogFacilities : List (Bytes × ℕ) :=
  [(ascii "kern", 0), (ascii "user", 8), (ascii "mail", 16), (ascii "daemon", 24),
   (ascii "auth", 32), (ascii "syslog", 40), (ascii "lpr", 48), (ascii "news", 56),
   (ascii "uucp", 64), (ascii "clock", 72), (ascii "ftp", 88), (ascii "ntp", 96),
   (ascii "audit", 104), (ascii "alert", 112), (ascii "clock2", 120), (ascii "local0", 128),
   (ascii "local1", 136), (ascii "local2", 144), (ascii "local3", 152), (ascii "local4", 160),
   (ascii "local5", 168), (ascii "local6", 176), (ascii "local7", 184)]

/-- `vlog_facility_exists` with the value found. -/
def vlogFacilityExists (facility : Bytes) : Option ℕ :=
  (vlogFacilities.find? fun f => strcaseEq f.1 facility).map Prod.snd

/-- `vlog_set_pattern`; without a destination, for all of them. -/
def vlogSetPattern (destination : Option VlogDestination) (pattern : Bytes) (c : LogConfig) :
    LogConfig :=
  match destination with
  | none => { c with pattern := fun _ => pattern }
  | some d => { c with pattern := Function.update c.pattern d pattern }

/-- `module`, `level` and `destination` of the loop, each missing until it is named. -/
structure LevelSpec where
  module : Option ℕ
  level : Option VlogLevel
  destination : Option VlogDestination

/-- One turn of the loop over the words. -/
def wordTurn (modules : List VlogModule) (spec : LevelSpec) (word : Bytes) :
    Except Bytes LevelSpec :=
  if strcaseEq word (ascii "ANY") then .ok spec
  else
    match vlogGetDestinationVal word with
    | some d =>
      if spec.destination.isSome then .error (ascii "cannot specify multiple destinations")
      else .ok { spec with destination := some d }
    | none =>
      match vlogGetLevelVal word with
      | some l =>
        if spec.level.isSome then .error (ascii "cannot specify multiple levels")
        else .ok { spec with level := some l }
      | none =>
        match vlogModuleFromName modules word with
        | some i =>
          if spec.module.isSome then .error (ascii "cannot specify multiple modules")
          else .ok { spec with module := some i }
        | none => .error (ascii "no destination, level, or module \"" ++ word ++ ascii "\"")

/-- The last branch of `vlog_set_levels_from_string`, the tokens being `words`. -/
def setLevelsFromWords (c : LogConfig) (words : List Bytes) : LogConfig × Option Bytes :=
  match words.foldlM (wordTurn c.modules) ⟨none, none, none⟩ with
  | .error msg => (c, some msg)
  | .ok spec =>
    ({ c with modules :=
        vlogSetLevels c.fileOpen spec.module spec.destination (spec.level.getD .dbg) c.modules },
      none)

/-- `vlog_set_levels_from_string`: the configuration afterwards and the error message. -/
def vlogSetLevelsFromString (c : LogConfig) (s : Bytes) : LogConfig × Option Bytes :=
  match strtokR wordDelim (text s) with
  | none => setLevelsFromWords c []
  | some (word, save) =>
    if strcaseEq word (ascii "PATTERN") then
      match strtokR wordDelim save with
      | none => (c, some (ascii "missing destination"))
      | some (word, save) =>
        if strcaseEq word (ascii "ANY") then (vlogSetPattern none save c, none)
        else
          match vlogGetDestinationVal word with
          | none => (c, some (ascii "unknown destination \"" ++ word ++ ascii "\""))
          | some d => (vlogSetPattern (some d) save c, none)
    else if strcaseEq word (ascii "FACILITY") then
      match vlogFacilityExists save with
      | none => (c, some (ascii "invalid facility"))
      | some value => ({ c with logFacility := value }, none)
    else setLevelsFromWords c (word :: tokensFrom wordDelim [] save)

/-! ### The words of a text -/

/-- The destination that a word names. -/
def wordDestination (w : Bytes) : Option VlogDestination :=
  if strcaseEq w (ascii "ANY") then none else vlogGetDestinationVal w

/-- The level that a word names, if it names no destination. -/
def wordLevel (w : Bytes) : Option VlogLevel :=
  if strcaseEq w (ascii "ANY") ∨ (vlogGetDestinationVal w).isSome then none else vlogGetLevelVal w

/-- The module that a word names, if it names no destination and no level. -/
def wordModule (modules : List VlogModule) (w : Bytes) : Option ℕ :=
  if strcaseEq w (ascii "ANY") ∨ (vlogGetDestinationVal w).isSome ∨ (vlogGetLevelVal w).isSome then
    none
  else vlogModuleFromName modules w

/-- The word is `ANY` or names something. -/
def Known (modules : List VlogModule) (w : Bytes) : Prop :=
  strcaseEq w (ascii "ANY") ∨ (wordDestination w).isSome ∨ (wordLevel w).isSome ∨
    (wordModule modules w).isSome

/-- After `spec`, the words are all known and name nothing twice. -/
structure AcceptedFrom (modules : List VlogModule) (spec : LevelSpec) (ws : List Bytes) : Prop where
  known : ∀ w ∈ ws, Known modules w
  destinations : (spec.destination.toList ++ ws.filterMap wordDestination).length ≤ 1
  levels : (spec.level.toList ++ ws.filterMap wordLevel).length ≤ 1
  modules : (spec.module.toList ++ ws.filterMap (wordModule modules)).length ≤ 1

/-- The words of an accepted text. -/
def Accepted (modules : List VlogModule) (ws : List Bytes) : Prop :=
  AcceptedFrom modules ⟨none, none, none⟩ ws

/-- What `spec` and the words name first. -/
def LevelSpec.after (modules : List VlogModule) (spec : LevelSpec) (ws : List Bytes) :
    LevelSpec where
  module := (spec.module.toList ++ ws.filterMap (wordModule modules)).head?
  level := (spec.level.toList ++ ws.filterMap wordLevel).head?
  destination := (spec.destination.toList ++ ws.filterMap wordDestination).head?

/-- A list of one element at most is known by its head. -/
theorem length_append_le_one_iff {α : Type} (l l' : List α) :
    (l ++ l').length ≤ 1 ↔ l.length ≤ 1 ∧ (l.head?.toList ++ l').length ≤ 1 := by
  cases l with
  | nil => simp
  | cons a l => simp

theorem head?_append_eq {α : Type} (l l' : List α) :
    (l.head?.toList ++ l').head? = (l ++ l').head? := by
  cases l with
  | nil => rfl
  | cons a l => rfl

/-- One word more. -/
theorem acceptedFrom_cons {modules : List VlogModule} {spec : LevelSpec} {w : Bytes}
    {ws : List Bytes} : AcceptedFrom modules spec (w :: ws) ↔
      AcceptedFrom modules spec [w] ∧ AcceptedFrom modules (spec.after modules [w]) ws := by
  have hsplit : ∀ {α : Type} (f : Bytes → Option α) (old : Option α),
      (old.toList ++ (w :: ws).filterMap f).length ≤ 1 ↔
        (old.toList ++ [w].filterMap f).length ≤ 1 ∧
          ((old.toList ++ [w].filterMap f).head?.toList ++ ws.filterMap f).length ≤ 1 := by
    intro α f old
    rw [← length_append_le_one_iff, List.append_assoc, ← List.filterMap_append,
      List.singleton_append]
  constructor
  · rintro ⟨hknown, hdest, hlevel, hmodule⟩
    rw [hsplit] at hdest hlevel hmodule
    exact ⟨⟨by simpa using hknown w List.mem_cons_self, hdest.1, hlevel.1, hmodule.1⟩,
      ⟨fun u hu => hknown u (List.mem_cons_of_mem w hu), hdest.2, hlevel.2, hmodule.2⟩⟩
  · rintro ⟨⟨hw, hdest, hlevel, hmodule⟩, ⟨hws, hdest', hlevel', hmodule'⟩⟩
    refine ⟨?_, (hsplit _ _).mpr ⟨hdest, hdest'⟩, (hsplit _ _).mpr ⟨hlevel, hlevel'⟩,
      (hsplit _ _).mpr ⟨hmodule, hmodule'⟩⟩
    intro u hu
    rcases List.mem_cons.mp hu with rfl | hu
    · exact hw u List.mem_cons_self
    · exact hws u hu

theorem after_cons (modules : List VlogModule) (spec : LevelSpec) (w : Bytes) (ws : List Bytes) :
    (spec.after modules [w]).after modules ws = spec.after modules (w :: ws) := by
  have hhead : ∀ {α : Type} (f : Bytes → Option α) (old : Option α),
      ((old.toList ++ [w].filterMap f).head?.toList ++ ws.filterMap f).head? =
        (old.toList ++ (w :: ws).filterMap f).head? := by
    intro α f old
    rw [head?_append_eq, List.append_assoc, ← List.filterMap_append, List.singleton_append]
  simp only [LevelSpec.after, hhead]

theorem toList_append_length_le_one_iff {α : Type} (old : Option α) (f : Bytes → Option α)
    (w : Bytes) : (old.toList ++ [w].filterMap f).length ≤ 1 ↔ old = none ∨ f w = none := by
  cases old with
  | none => cases hf : f w <;> simp [hf]
  | some a => cases hf : f w <;> simp [hf]

theorem acceptedFrom_singleton {modules : List VlogModule} {spec : LevelSpec} {w : Bytes} :
    AcceptedFrom modules spec [w] ↔ Known modules w ∧
      (spec.destination = none ∨ wordDestination w = none) ∧
      (spec.level = none ∨ wordLevel w = none) ∧
      (spec.module = none ∨ wordModule modules w = none) := by
  simp only [← toList_append_length_le_one_iff]
  constructor
  · rintro ⟨hknown, hdest, hlevel, hmodule⟩
    exact ⟨hknown w (List.mem_singleton_self w), hdest, hlevel, hmodule⟩
  · rintro ⟨hknown, hdest, hlevel, hmodule⟩
    exact ⟨fun u hu => List.mem_singleton.mp hu ▸ hknown, hdest, hlevel, hmodule⟩

/-- One turn takes a known word that names nothing a second time. -/
theorem wordTurn_spec (modules : List VlogModule) (spec : LevelSpec) (w : Bytes) :
    match wordTurn modules spec w with
    | .error _ => ¬ AcceptedFrom modules spec [w]
    | .ok r => AcceptedFrom modules spec [w] ∧ r = spec.after modules [w] := by
  rw [acceptedFrom_singleton]
  obtain ⟨m, l, d⟩ := spec
  unfold wordTurn Known LevelSpec.after wordModule wordLevel wordDestination
  cases hany : strcaseEq w (ascii "ANY") with
  | true => simp [hany]
  | false =>
    cases hdest : vlogGetDestinationVal w with
    | some d' => cases d <;> simp [hany, hdest]
    | none =>
      cases hlevel : vlogGetLevelVal w with
      | some l' => cases l <;> simp [hany, hdest, hlevel]
      | none =>
        cases hmodule : vlogModuleFromName modules w with
        | some i => cases m <;> simp [hany, hdest, hlevel, hmodule]
        | none => simp

/-- The loop takes the words it accepts, and then holds what they name. -/
theorem foldlM_wordTurn (modules : List VlogModule) (ws : List Bytes) (spec : LevelSpec) :
    match ws.foldlM (wordTurn modules) spec with
    | .error _ => ¬ AcceptedFrom modules spec ws
    | .ok r => AcceptedFrom modules spec ws ∧ r = spec.after modules ws := by
  induction ws generalizing spec with
  | nil =>
    obtain ⟨m, l, d⟩ := spec
    refine ⟨⟨by simp, ?_, ?_, ?_⟩, ?_⟩
    · cases d <;> simp
    · cases l <;> simp
    · cases m <;> simp
    · simp [LevelSpec.after]
  | cons w ws ih =>
    have hturn := wordTurn_spec modules spec w
    rw [List.foldlM_cons]
    cases hw : wordTurn modules spec w with
    | error msg =>
      rw [hw] at hturn
      exact fun h => hturn (acceptedFrom_cons.mp h).1
    | ok r =>
      simp only [hw] at hturn
      obtain ⟨haccepted, rfl⟩ := hturn
      have hrest := ih (spec.after modules [w])
      change (match ws.foldlM (wordTurn modules) (spec.after modules [w]) with
        | .error _ => ¬ AcceptedFrom modules spec (w :: ws)
        | .ok r => AcceptedFrom modules spec (w :: ws) ∧ r = spec.after modules (w :: ws))
      cases hfold : ws.foldlM (wordTurn modules) (spec.after modules [w]) with
      | error msg =>
        rw [hfold] at hrest
        exact fun h => hrest (acceptedFrom_cons.mp h).2
      | ok r =>
        simp only [hfold] at hrest
        rw [after_cons] at hrest
        exact ⟨acceptedFrom_cons.mpr ⟨haccepted, hrest.1⟩, hrest.2⟩

/-! ### What a text sets -/

/-- The text sets a pattern or the facility. -/
def Keyword (s : Bytes) : Prop :=
  ∃ word ∈ (strtoks wordDelim s).head?,
    strcaseEq word (ascii "PATTERN") ∨ strcaseEq word (ascii "FACILITY")

/-- What the words of an accepted text set. -/
def setNamed (c : LogConfig) (ws : List Bytes) : LogConfig :=
  let spec := LevelSpec.after c.modules ⟨none, none, none⟩ ws
  { c with modules :=
      vlogSetLevels c.fileOpen spec.module spec.destination (spec.level.getD .dbg) c.modules }

theorem vlogSetLevelsFromString_words {s : Bytes} (hs : ¬ Keyword s) (c : LogConfig) :
    vlogSetLevelsFromString c s = setLevelsFromWords c (strtoks wordDelim s) := by
  have htokens := @tokensFrom_strtokR wordDelim (text s)
  unfold vlogSetLevelsFromString
  unfold Keyword at hs
  rw [strtoks] at hs ⊢
  cases hfirst : strtokR wordDelim (text s) with
  | none =>
    rw [hfirst] at htokens
    rw [htokens]
  | some r =>
    obtain ⟨word, save⟩ := r
    simp only [hfirst] at htokens
    simp only [htokens, List.head?_cons, Option.mem_def, Option.some.injEq, exists_eq_left',
      not_or] at hs ⊢
    rw [if_neg hs.1, if_neg hs.2]

/-- The words are taken exactly when they are accepted; otherwise nothing changes. -/
theorem setLevelsFromWords_spec (c : LogConfig) (ws : List Bytes) :
    (Accepted c.modules ws → setLevelsFromWords c ws = (setNamed c ws, none)) ∧
      (¬ Accepted c.modules ws → ∃ msg, setLevelsFromWords c ws = (c, some msg)) := by
  have hfold := foldlM_wordTurn c.modules ws ⟨none, none, none⟩
  unfold setLevelsFromWords
  cases hr : ws.foldlM (wordTurn c.modules) ⟨none, none, none⟩ with
  | error msg =>
    rw [hr] at hfold
    exact ⟨fun h => absurd h hfold, fun _ => ⟨msg, rfl⟩⟩
  | ok spec =>
    simp only [hr] at hfold
    obtain ⟨haccepted, rfl⟩ := hfold
    exact ⟨fun _ => rfl, fun h => absurd haccepted h⟩

/-- A text that is rejected changes nothing, whatever it sets. -/
theorem rejected_unchanged {c : LogConfig} {s msg : Bytes}
    (h : (vlogSetLevelsFromString c s).2 = some msg) : (vlogSetLevelsFromString c s).1 = c := by
  have hwords : ∀ ws : List Bytes, (setLevelsFromWords c ws).2 = some msg →
      (setLevelsFromWords c ws).1 = c := by
    intro ws hmsg
    by_cases haccepted : Accepted c.modules ws
    · rw [(setLevelsFromWords_spec c ws).1 haccepted] at hmsg
      cases hmsg
    · obtain ⟨msg', hreject⟩ := (setLevelsFromWords_spec c ws).2 haccepted
      rw [hreject]
  unfold vlogSetLevelsFromString at h ⊢
  cases hfirst : strtokR wordDelim (text s) with
  | none =>
    rw [hfirst] at h
    exact hwords _ h
  | some r =>
    obtain ⟨word, save⟩ := r
    simp only [hfirst] at h ⊢
    split_ifs at h ⊢ with hpattern hfacility
    · cases hsecond : strtokR wordDelim save with
      | none => rfl
      | some r =>
        obtain ⟨word, save⟩ := r
        simp only [hsecond] at h ⊢
        split_ifs at h ⊢ with hany
        cases hdest : vlogGetDestinationVal word with
        | none => rfl
        | some d => simp [hdest] at h
    · cases hvalue : vlogFacilityExists save with
      | none => rfl
      | some value => simp [hvalue] at h
    · exact hwords _ h

/-- The order of the words does not matter. -/
theorem accepted_perm {modules : List VlogModule} {ws ws' : List Bytes} (h : ws.Perm ws')
    (haccepted : Accepted modules ws) : Accepted modules ws' := by
  obtain ⟨hknown, hdest, hlevel, hmodule⟩ := haccepted
  refine ⟨fun w hw => hknown w (h.mem_iff.mpr hw), ?_, ?_, ?_⟩
  · simpa [(h.filterMap wordDestination).length_eq] using hdest
  · simpa [(h.filterMap wordLevel).length_eq] using hlevel
  · simpa [(h.filterMap (wordModule modules)).length_eq] using hmodule

/-- Two lists of one element at most are equal if they are permutations. -/
theorem head?_perm {α : Type} {l l' : List α} (h : l.Perm l') (hone : l.length ≤ 1) :
    l.head? = l'.head? := by
  match l, hone with
  | [], _ => rw [List.nil_perm.mp h]
  | [a], _ => rw [List.singleton_perm.mp h]

theorem setNamed_perm {c : LogConfig} {ws ws' : List Bytes} (h : ws.Perm ws')
    (haccepted : Accepted c.modules ws) : setNamed c ws = setNamed c ws' := by
  obtain ⟨_, hdest, hlevel, hmodule⟩ := haccepted
  have hafter : LevelSpec.after c.modules ⟨none, none, none⟩ ws =
      LevelSpec.after c.modules ⟨none, none, none⟩ ws' := by
    unfold LevelSpec.after
    congr 1
    · exact head?_perm (h.filterMap (wordModule c.modules)) hmodule
    · exact head?_perm (h.filterMap wordLevel) hlevel
    · exact head?_perm (h.filterMap wordDestination) hdest
  rw [setNamed, setNamed, hafter]

theorem setLevelsFromWords_perm (c : LogConfig) {ws ws' : List Bytes} (h : ws.Perm ws') :
    (setLevelsFromWords c ws).1 = (setLevelsFromWords c ws').1 ∧
      ((setLevelsFromWords c ws).2 = none ↔ (setLevelsFromWords c ws').2 = none) := by
  by_cases haccepted : Accepted c.modules ws
  · rw [(setLevelsFromWords_spec c ws).1 haccepted,
      (setLevelsFromWords_spec c ws').1 (accepted_perm h haccepted), setNamed_perm h haccepted]
    exact ⟨rfl, Iff.rfl⟩
  · obtain ⟨msg, hreject⟩ := (setLevelsFromWords_spec c ws).2 haccepted
    obtain ⟨msg', hreject'⟩ := (setLevelsFromWords_spec c ws').2
      fun h' => haccepted (accepted_perm h.symm h')
    rw [hreject, hreject']
    exact ⟨rfl, by simp⟩

/-- A text of words sets the levels it names, of all modules and destinations where it names
none, and `dbg` where it names no level. It is rejected as a whole, and the words of a text may
stand in any order. -/
theorem level_spec_meaning (c : LogConfig) {s s' : Bytes} (hs : ¬ Keyword s) (hs' : ¬ Keyword s')
    (h : (strtoks wordDelim s).Perm (strtoks wordDelim s')) :
    let ws := strtoks wordDelim s
    let r := vlogSetLevelsFromString c s
    (r.2 = none ↔ Accepted c.modules ws) ∧
      (∀ i d, vlogGetLevel r.1.modules i d = (vlogGetLevel c.modules i d).map fun old =>
        if r.2 = none ∧ (∀ j ∈ ws.filterMap (wordModule c.modules), j = i) ∧
            ∀ d' ∈ ws.filterMap wordDestination, d' = d then
          (ws.filterMap wordLevel).headD .dbg
        else old) ∧
      (vlogSetLevelsFromString c s').1 = r.1 ∧
      ((vlogSetLevelsFromString c s').2 = none ↔ r.2 = none) := by
  intro ws r
  have hr : r = setLevelsFromWords c ws := vlogSetLevelsFromString_words hs c
  have hperm := setLevelsFromWords_perm c h
  rw [vlogSetLevelsFromString_words hs' c, hr]
  refine ⟨?_, ?_, hperm.1.symm, hperm.2.symm⟩
  · by_cases haccepted : Accepted c.modules ws
    · rw [(setLevelsFromWords_spec c ws).1 haccepted]
      exact iff_of_true rfl haccepted
    · obtain ⟨msg, hreject⟩ := (setLevelsFromWords_spec c ws).2 haccepted
      rw [hreject]
      exact iff_of_false (by simp) haccepted
  · intro i d
    by_cases haccepted : Accepted c.modules ws
    · -- at most one module and one destination are named: all of them is the first
      have hall : ∀ {α : Type} (l : List α) (a : α), l.length ≤ 1 →
          ((l.head? = none ∨ l.head? = some a) ↔ ∀ b ∈ l, b = a) := by
        intro α l a hone
        match l, hone with
        | [], _ => simp
        | [b], _ => simp
      obtain ⟨_, hdest, _, hmodule⟩ := id haccepted
      rw [(setLevelsFromWords_spec c ws).1 haccepted, setNamed, vlogGetLevel_vlogSetLevels]
      simp only [LevelSpec.after, Option.toList_none, List.nil_append, true_and,
        hall (ws.filterMap (wordModule c.modules)) i hmodule,
        hall (ws.filterMap wordDestination) d hdest, List.headD_eq_head?_getD]
    · obtain ⟨msg, hreject⟩ := (setLevelsFromWords_spec c ws).2 haccepted
      rw [hreject]
      simp

/-- Two modules with the levels they start with. -/
def sampleConfig : LogConfig :=
  ⟨[defineThisModule (ascii "bridge"), defineThisModule (ascii "poll_loop")], fun _ => [], 0, true⟩

/-- The words of `console,poll_loop dbg` in another order. -/
theorem level_spec_meaning_sample :
    (vlogSetLevelsFromString sampleConfig (ascii "dbg:poll_loop:console")).1 =
      (vlogSetLevelsFromString sampleConfig (ascii "console,poll_loop dbg")).1 := by
  have hwords : strtoks wordDelim (ascii "console,poll_loop dbg") =
      [ascii "console", ascii "poll_loop", ascii "dbg"] := by decide
  have hwords' : strtoks wordDelim (ascii "dbg:poll_loop:console") =
      [ascii "dbg", ascii "poll_loop", ascii "console"] := by decide
  have hkey : ¬ Keyword (ascii "console,poll_loop dbg") := by
    rw [Keyword, hwords]
    decide
  have hkey' : ¬ Keyword (ascii "dbg:poll_loop:console") := by
    rw [Keyword, hwords']
    decide
  have hperm : (strtoks wordDelim (ascii "console,poll_loop dbg")).Perm
      (strtoks wordDelim (ascii "dbg:poll_loop:console")) := by
    rw [hwords, hwords']
    decide
  exact (level_spec_meaning sampleConfig hkey hkey' hperm).2.2.1

/-- A module whose name is one word, no word of its own meaning, and the first of that name. -/
structure Addressable (modules : List VlogModule) (i : ℕ) (name : Bytes) : Prop where
  token : IsToken wordDelim name
  keyword : strcaseEq name (ascii "PATTERN") = false ∧ strcaseEq name (ascii "FACILITY") = false
  any : strcaseEq name (ascii "ANY") = false
  destination : vlogGetDestinationVal name = none
  level : vlogGetLevelVal name = none
  found : vlogModuleFromName modules name = some i

theorem levelName_token (l : VlogLevel) : IsToken wordDelim (levelName l) := by
  cases l <;> simp [IsToken, levelName, ascii, wordDelim]

theorem destinationName_token (d : VlogDestination) : IsToken wordDelim (destinationName d) := by
  cases d <;> simp [IsToken, destinationName, ascii, wordDelim]

/-- The words of `name:destination:level`. -/
def specWords (name : Bytes) (d : VlogDestination) (l : VlogLevel) : List Bytes :=
  [name, destinationName d, levelName l]

/-- Naming a module, a destination and a level sets this level and leaves every other one. -/
theorem level_spec_addresses (c : LogConfig) {i : ℕ} {name : Bytes}
    (h : Addressable c.modules i name) (d : VlogDestination) (l : VlogLevel) :
    let r := vlogSetLevelsFromString c ([58].intercalate (specWords name d l))
    r.2 = none ∧ ∀ j d', vlogGetLevel r.1.modules j d' =
      (vlogGetLevel c.modules j d').map fun old => if j = i ∧ d' = d then l else old := by
  have hwords : strtoks wordDelim ([58].intercalate (specWords name d l)) = specWords name d l := by
    apply strtoks_intercalate _ (by decide) (by decide)
    intro t ht
    simp only [specWords, List.mem_cons, List.not_mem_nil, or_false] at ht
    rcases ht with rfl | rfl | rfl
    · exact h.token
    · exact destinationName_token d
    · exact levelName_token l
  have hkey : ¬ Keyword ([58].intercalate (specWords name d l)) := by
    rw [Keyword, hwords]
    simp [specWords, h.keyword]
  have hdest : (specWords name d l).filterMap wordDestination = [d] := by
    have hl : wordDestination (levelName l) = none := by cases l <;> decide
    have hd : wordDestination (destinationName d) = some d := by cases d <;> decide
    have hname : wordDestination name = none := by simp [wordDestination, h.any, h.destination]
    simp [specWords, hname, hl, hd]
  have hlevel : (specWords name d l).filterMap wordLevel = [l] := by
    have hl : wordLevel (levelName l) = some l := by cases l <;> decide
    have hd : wordLevel (destinationName d) = none := by cases d <;> decide
    have hname : wordLevel name = none := by simp [wordLevel, h.any, h.destination, h.level]
    simp [specWords, hname, hl, hd]
  have hmodule : (specWords name d l).filterMap (wordModule c.modules) = [i] := by
    have hl : wordModule c.modules (levelName l) = none := by
      rw [wordModule, if_pos (by cases l <;> decide)]
    have hd : wordModule c.modules (destinationName d) = none := by
      rw [wordModule, if_pos (by cases d <;> decide)]
    have hname : wordModule c.modules name = some i := by
      simp [wordModule, h.any, h.destination, h.level, h.found]
    simp [specWords, hname, hl, hd]
  have haccepted : Accepted c.modules (specWords name d l) := by
    refine ⟨?_, by simp [hdest], by simp [hlevel], by simp [hmodule]⟩
    intro w hw
    simp only [specWords, List.mem_cons, List.not_mem_nil, or_false] at hw
    rcases hw with rfl | rfl | rfl
    · simp [Known, wordModule, h.any, h.destination, h.level, h.found]
    · exact Or.inr (Or.inl (by cases d <;> decide))
    · exact Or.inr (Or.inr (Or.inl (by cases l <;> decide)))
  intro r
  have hr : r = (setNamed c (specWords name d l), none) := by
    change vlogSetLevelsFromString _ _ = _
    rw [vlogSetLevelsFromString_words hkey, hwords, (setLevelsFromWords_spec c _).1 haccepted]
  rw [hr]
  refine ⟨rfl, ?_⟩
  intro j d'
  rw [setNamed, vlogGetLevel_vlogSetLevels]
  simp [LevelSpec.after, hdest, hlevel, hmodule, eq_comm]

/-- `poll_loop:CONSOLE:DBG`. -/
theorem level_spec_addresses_sample :
    let r := vlogSetLevelsFromString sampleConfig
      ([58].intercalate (specWords (ascii "poll_loop") .console .dbg))
    r.2 = none ∧ ∀ j d', vlogGetLevel r.1.modules j d' =
      (vlogGetLevel sampleConfig.modules j d').map fun old =>
        if j = 1 ∧ d' = .console then .dbg else old :=
  level_spec_addresses sampleConfig
    ⟨by simp [IsToken, ascii, wordDelim], by decide, by decide, by decide, by decide, by decide⟩
    .console .dbg

/-! ### Commands with several arguments -/

section Arguments

variable {σ α ε κ : Type} (apply : σ → α → σ × Option ε)

/-- The arguments one after the other, up to the first error. -/
def applyArgs : σ → List α → σ × Option ε
  | s, [] => (s, none)
  | s, a :: rest =>
    match apply s a with
    | (s, some msg) => (s, some msg)
    | (s, none) => applyArgs s rest

variable {apply}

/-- If an argument is judged by a part of the state that no argument changes, and an error leaves
the state alone, then those before the first bad one are applied, whatever order they are in. -/
theorem applyArgs_eq (view : σ → κ) (hview : ∀ s a, view (apply s a).1 = view s)
    (hjudge : ∀ s t a, view s = view t → (apply s a).2 = (apply t a).2)
    (herror : ∀ s a, (apply s a).2 ≠ none → (apply s a).1 = s) {s₀ : σ} (s : σ)
    (hs : view s = view s₀) (args : List α) :
    applyArgs apply s args =
      ((args.takeWhile fun a => (apply s₀ a).2.isNone).foldl (fun s a => (apply s a).1) s,
        (args.dropWhile fun a => (apply s₀ a).2.isNone).head?.bind fun a => (apply s₀ a).2) := by
  induction args generalizing s with
  | nil => rfl
  | cons a args ih =>
    have hsame := hjudge s s₀ a hs
    have hkeep := herror s a
    have hrest := ih (apply s a).1 ((hview s a).trans hs)
    rw [applyArgs]
    cases happly : apply s a with
    | mk s' r =>
      rw [happly] at hsame hkeep hrest
      cases r with
      | none =>
        rw [List.takeWhile_cons_of_pos (by rw [← hsame]; rfl),
          List.dropWhile_cons_of_pos (by rw [← hsame]; rfl), List.foldl_cons, happly]
        exact hrest
      | some msg =>
        rw [List.takeWhile_cons_of_neg (by simp [← hsame]),
          List.dropWhile_cons_of_neg (by simp [← hsame]), List.head?_cons, Option.bind_some,
          ← hsame]
        exact Prod.ext (hkeep (by simp)) rfl

end Arguments

/-- `vlog_unixctl_set`: the configuration and the error it replies. -/
def vlogUnixctlSet (c : LogConfig) (args : List Bytes) : LogConfig × Option Bytes :=
  if args = [] then
    ({ c with modules := vlogSetLevels c.fileOpen none none .dbg c.modules }, none)
  else applyArgs vlogSetLevelsFromString c args

/-- One turn of the loop of `set_rate_limits`. -/
def rateLimitArg (enable : Bool) (modules : List VlogModule) (arg : Bytes) :
    List VlogModule × Option Bytes :=
  let set := fun m : VlogModule => { m with honorRateLimits := enable }
  if strcaseEq arg (ascii "ANY") then (modules.map set, none)
  else
    match vlogModuleFromName modules arg with
    | none => (modules, some (ascii "unknown module"))
    | some i => (modules.modify i set, none)

/-- `set_rate_limits` with `set_all_rate_limits`. -/
def setRateLimits (enable : Bool) (modules : List VlogModule) (args : List Bytes) :
    List VlogModule × Option Bytes :=
  if args = [] then (modules.map fun m => { m with honorRateLimits := enable }, none)
  else applyArgs (rateLimitArg enable) modules args

theorem wordTurn_congr {modules modules' : List VlogModule}
    (h : modules.map VlogModule.name = modules'.map VlogModule.name) :
    wordTurn modules = wordTurn modules' := by
  ext spec word
  rw [wordTurn, wordTurn, vlogModuleFromName_congr h]

/-- No text changes the names of the modules. -/
theorem vlogSetLevelsFromString_names (c : LogConfig) (s : Bytes) :
    (vlogSetLevelsFromString c s).1.modules.map VlogModule.name =
      c.modules.map VlogModule.name := by
  have hwords : ∀ ws, (setLevelsFromWords c ws).1.modules.map VlogModule.name =
      c.modules.map VlogModule.name := by
    intro ws
    unfold setLevelsFromWords
    cases ws.foldlM (wordTurn c.modules) ⟨none, none, none⟩ with
    | error msg => rfl
    | ok spec => exact vlogSetLevels_names _ _ _ _ _
  have hpattern : ∀ d p, (vlogSetPattern d p c).modules = c.modules := by
    intro d p
    cases d <;> rfl
  unfold vlogSetLevelsFromString
  split
  · exact hwords []
  · split_ifs
    · split
      · rfl
      · split_ifs
        · rw [hpattern]
        · split
          · rfl
          · rw [hpattern]
    · split
      · rfl
      · rfl
    · exact hwords _

/-- Whether a text is accepted depends on the names alone. -/
theorem vlogSetLevelsFromString_judge {c c' : LogConfig}
    (h : c.modules.map VlogModule.name = c'.modules.map VlogModule.name) (s : Bytes) :
    (vlogSetLevelsFromString c s).2 = (vlogSetLevelsFromString c' s).2 := by
  have hwords : ∀ ws, (setLevelsFromWords c ws).2 = (setLevelsFromWords c' ws).2 := by
    intro ws
    unfold setLevelsFromWords
    rw [wordTurn_congr h]
    cases ws.foldlM (wordTurn c'.modules) ⟨none, none, none⟩ with
    | error msg => rfl
    | ok spec => rfl
  unfold vlogSetLevelsFromString
  split
  · exact hwords []
  · split_ifs
    · split
      · rfl
      · split_ifs
        · rfl
        · split <;> rfl
    · split <;> rfl
    · exact hwords _

theorem rateLimitArg_names (enable : Bool) (modules : List VlogModule) (arg : Bytes) :
    (rateLimitArg enable modules arg).1.map VlogModule.name = modules.map VlogModule.name := by
  unfold rateLimitArg
  split_ifs
  · rw [List.map_map]
    rfl
  · split
    · rfl
    · apply List.ext_getElem?
      intro j
      simp only [List.getElem?_map, List.getElem?_modify, Option.map_eq_map, Option.map_map]
      split_ifs
      · rfl
      · rfl

/-- The argument is accepted. -/
def goodSet (c : LogConfig) (arg : Bytes) : Bool := (vlogSetLevelsFromString c arg).2.isNone

def goodLimit (enable : Bool) (modules : List VlogModule) (arg : Bytes) : Bool :=
  (rateLimitArg enable modules arg).2.isNone

/-- `vlog/set` and the two commands for the rate limits do what the arguments before the first
bad one say. Which argument is bad does not depend on the ones before it, and the reply is its
error. -/
theorem commands_stop_at_bad_argument (c : LogConfig) (enable : Bool) {args : List Bytes}
    (h : args ≠ []) :
    vlogUnixctlSet c args =
        ((args.takeWhile (goodSet c)).foldl (fun c a => (vlogSetLevelsFromString c a).1) c,
          (args.dropWhile (goodSet c)).head?.bind fun a => (vlogSetLevelsFromString c a).2) ∧
      setRateLimits enable c.modules args =
        ((args.takeWhile (goodLimit enable c.modules)).foldl
            (fun ms a => (rateLimitArg enable ms a).1) c.modules,
          (args.dropWhile (goodLimit enable c.modules)).head?.bind fun a =>
            (rateLimitArg enable c.modules a).2) := by
  constructor
  · rw [vlogUnixctlSet, if_neg h]
    refine applyArgs_eq (fun c => c.modules.map VlogModule.name) vlogSetLevelsFromString_names
      (fun s t a hst => vlogSetLevelsFromString_judge hst a) ?_ c rfl args
    intro c' a hmsg
    obtain ⟨msg, hmsg⟩ := Option.ne_none_iff_exists'.mp hmsg
    exact rejected_unchanged hmsg
  · rw [setRateLimits, if_neg h]
    refine applyArgs_eq (fun ms => ms.map VlogModule.name) (rateLimitArg_names enable) ?_ ?_
      c.modules rfl args
    · intro ms ms' a hnames
      unfold rateLimitArg
      rw [vlogModuleFromName_congr hnames]
      split_ifs
      · rfl
      · split <;> rfl
    · intro ms a hmsg
      unfold rateLimitArg at hmsg ⊢
      split_ifs at hmsg ⊢
      · simp at hmsg
      · split at hmsg
        · rfl
        · simp at hmsg

/-- The second argument is bad, the first one is applied. -/
theorem commands_stop_at_bad_argument_sample :
    (vlogUnixctlSet sampleConfig [ascii "dbg", ascii "none", ascii "off"]).1 =
      ([ascii "dbg", ascii "none", ascii "off"].takeWhile (goodSet sampleConfig)).foldl
        (fun c a => (vlogSetLevelsFromString c a).1) sampleConfig := by
  have h : [ascii "dbg", ascii "none", ascii "off"] ≠ [] := List.cons_ne_nil _ _
  rw [(commands_stop_at_bad_argument sampleConfig true h).1]

end MemoryLeak.Log
