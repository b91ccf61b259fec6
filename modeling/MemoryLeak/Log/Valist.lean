import MemoryLeak.Log.LogFile
import MemoryLeak.Log.LogFormat

/-!
# Writing a message

`vlog_valist` formats a message for each destination that outputs its level. The macros call it
behind a test of the cached level, and the test changes nothing. The message for the UDP sink is
sent again, each time shorter, until the socket takes it.
-/
namespace MemoryLeak.Log
open MemoryLeak.CBytes MemoryLeak.CText MemoryLeak.Runs

/-! ### `vlog_valist` -/

/-- What `vlog_valist` writes. -/
structure Outputted where
  /-- To `stderr`. -/
  console : Option Bytes
  /-- To the syslog daemon, line by line. -/
  syslog : List (ℕ × Bytes)
  /-- To `send_to_syslog_fd`. -/
  datagram : Option Bytes
  /-- To the section that writes to the log file. -/
  file : Option Bytes

def nothing : Outputted := ⟨none, [], none, none⟩

/-- The pattern for `send_to_syslog_fd`. -/
def datagramPattern : Bytes :=
  ascii "<%B>1 %D\x7b%Y-%m-%dT%H:%M:%S.###Z\x7d %E %A %P %c - " ++ [0xef, 0xbb, 0xbf] ++ ascii "%m"

/-- The text for a destination, if it is wanted; `none` where the pattern cannot be read. -/
def formatIf (wanted : Bool) (env : LogEnv) (call : LogCall) (pattern : Bytes) :
    Option (Option Bytes) :=
  if wanted then (formatLogMessage env call pattern).map some else some none

/-- `vlog_valist` with the patterns of the destinations, and whether `log_fd >= 0` and
`syslog_fd >= 0`. -/
def vlogValist (pattern : VlogDestination → Bytes) (fileOpen sinkOpen : Bool) (env : LogEnv)
    (call : LogCall) : Option Outputted :=
  let logTo d := decide (call.level ≤ call.module.levels d)
  let toFile := logTo .file && fileOpen
  if !(logTo .console || logTo .syslog || toFile) then some nothing
  else
    (formatIf (logTo .console) env call (pattern .console)).bind fun console =>
    (formatIf (logTo .syslog) env call (pattern .syslog)).bind fun lines =>
    (formatIf (logTo .syslog && sinkOpen) env call datagramPattern).bind fun datagram =>
    (formatIf toFile env call (pattern .file)).map fun file =>
      { console := console.map fun s => text (s ++ [10])
        syslog := (lines.elim [] (strtoks fun c => c == 10)).map fun line =>
          (syslogLevel call.level ||| env.logFacility, line)
        datagram := datagram
        file := file.map fun s => s ++ [10] }

/-- The macro `VLOG`. -/
def vlogMacro (pattern : VlogDestination → Bytes) (fileOpen sinkOpen : Bool) (env : LogEnv)
    (call : LogCall) : Option Outputted :=
  if vlogIsEnabled call.module call.level then vlogValist pattern fileOpen sinkOpen env call
  else some nothing

/-- Without a destination that outputs the level nothing is written. -/
theorem vlogValist_of_not_outputs {fileOpen : Bool} {call : LogCall}
    (h : ¬ Outputs fileOpen call.module call.level) (pattern : VlogDestination → Bytes)
    (sinkOpen : Bool) (env : LogEnv) :
    vlogValist pattern fileOpen sinkOpen env call = some nothing := by
  have hlevel : ∀ d, Counts fileOpen d → ¬ call.level ≤ call.module.levels d :=
    fun d hd hle => h ⟨d, hd, hle⟩
  have hconsole := hlevel .console (by simp [Counts])
  have hsyslog := hlevel .syslog (by simp [Counts])
  have hfile : (decide (call.level ≤ call.module.levels .file) && fileOpen) = false := by
    cases hopen : fileOpen with
    | false => exact Bool.and_false _
    | true => simpa using hlevel .file (by simp [Counts, hopen])
  simp [vlogValist, hconsole, hsyslog, hfile]

/-- After every run of the log's operations that ends the macro writes what `vlog_valist` would
write without the test. -/
theorem vlogMacro_eq_vlogValist {α ω : Type} (A : AsyncAppend α ω) (a : α) {es : List LogEvent}
    {s : LogState α ω} (hrun : run (logStep A) (logStart a) es = some s) {call : LogCall}
    (hcall : call.module ∈ s.modules) (pattern : VlogDestination → Bytes) (sinkOpen : Bool)
    (env : LogEnv) : vlogMacro pattern s.fileOpen sinkOpen env call =
      vlogValist pattern s.fileOpen sinkOpen env call := by
  rw [vlogMacro]
  by_cases henabled : vlogIsEnabled call.module call.level = true
  · rw [if_pos henabled]
  · rw [if_neg henabled, vlogValist_of_not_outputs]
    intro houtputs
    exact henabled (decide_eq_true (logRun_guard hrun call.module hcall call.level houtputs))

theorem vlogMacro_eq_vlogValist_sample :
    ∃ s : LogState (List (ℕ × ℕ × List Bytes)) ℕ,
      run (logStep queuedAppend) (logStart []) fileSession = some s ∧
      ∀ call : LogCall, call.module ∈ s.modules → ∀ pattern sinkOpen env,
        vlogMacro pattern s.fileOpen sinkOpen env call =
          vlogValist pattern s.fileOpen sinkOpen env call := by
  obtain ⟨s, hrun, -⟩ := fileSession_possible.run
    (fun s e hs he => logStep_fileInv queuedAppend_lawful hs he) (fileInv_start queuedOn [])
  exact ⟨s, hrun, fun call hcall pattern sinkOpen env =>
    vlogMacro_eq_vlogValist queuedAppend [] hrun hcall pattern sinkOpen env⟩

/-! ### `send_to_syslog_fd` -/

/-- The loop of `send_to_syslog_fd`, for a number of turns, on a socket that takes datagrams of
up to `limit` bytes: the length that was sent and `max_length`. -/
def sendLoop (limit : ℕ) : ℕ → ℕ → ℕ → Option (ℕ × ℕ)
  | 0, _, _ => none
  | turns + 1, sendLen, maxLength =>
    if limit < sendLen then
      let sendLen := sendLen - sendLen / 20
      sendLoop limit turns sendLen sendLen
    else some (sendLen, maxLength)

/-- `send_to_syslog_fd`: `max_length` afterwards and the datagram. -/
def sendToSyslogFd (limit turns maxLength : ℕ) (s : Bytes) : Option (ℕ × Bytes) :=
  (sendLoop limit turns (min s.length maxLength) maxLength).map fun (sendLen, maxLength) =>
    (maxLength, s.take sendLen)

/-- The datagrams of a run of messages. -/
def sendAll (limit turns : ℕ) : ℕ → List Bytes → Option (List Bytes)
  | _, [] => some []
  | maxLength, s :: messages =>
    (sendToSyslogFd limit turns maxLength s).bind fun (maxLength, datagram) =>
      (sendAll limit turns maxLength messages).map fun datagrams => datagram :: datagrams

/-- `SIZE_MAX`. -/
def sizeMax : ℕ := 2 ^ 64 - 1

/-- The least that is left of a datagram that the socket does not take. -/
def cutTo (limit : ℕ) : ℕ := (limit + 1) - (limit + 1) / 20

theorem cutTo_le {limit n : ℕ} (h : limit < n) : cutTo limit ≤ n - n / 20 := by
  rw [cutTo]
  omega

/-- What the loop ends with: nothing was cut, or `max_length` is the length sent. -/
theorem sendLoop_spec {limit turns n maxLength : ℕ} {r : ℕ × ℕ}
    (h : sendLoop limit turns n maxLength = some r) :
    r.1 ≤ limit ∧ r.1 ≤ n ∧ (r = (n, maxLength) ∨ r.1 = r.2 ∧ cutTo limit ≤ r.1) := by
  induction turns generalizing n maxLength with
  | zero => cases h
  | succ turns ih =>
    rw [sendLoop] at h
    by_cases hn : limit < n
    · rw [if_pos hn] at h
      obtain ⟨hlimit, hle, hlast⟩ := ih h
      refine ⟨hlimit, hle.trans (Nat.sub_le _ _), Or.inr ?_⟩
      rcases hlast with rfl | hlast
      · exact ⟨rfl, cutTo_le hn⟩
      · exact hlast
    · rw [if_neg hn] at h
      cases h
      exact ⟨Nat.le_of_not_lt hn, le_rfl, Or.inl rfl⟩

/-- Below 20 bytes nothing is cut off, and the loop goes on for ever. -/
theorem sendLoop_diverges {limit : ℕ} (hlimit : limit < 19) (turns : ℕ) {n : ℕ} (hn : limit < n)
    (maxLength : ℕ) : sendLoop limit turns n maxLength = none := by
  induction turns generalizing n maxLength with
  | zero => rfl
  | succ turns ih =>
    rw [sendLoop, if_pos hn]
    exact ih (by omega) _

theorem sendLoop_ends {limit turns n : ℕ} (h : 19 ≤ limit ∨ n ≤ limit) (hturns : n ≤ turns)
    (maxLength : ℕ) : ∃ r, sendLoop limit (turns + 1) n maxLength = some r := by
  induction turns generalizing n maxLength with
  | zero => exact ⟨(n, maxLength), if_neg (by omega)⟩
  | succ turns ih =>
    by_cases hn : limit < n
    · obtain ⟨r, hr⟩ := ih (n := n - n / 20) (Or.inl (by omega)) (by omega) (n - n / 20)
      exact ⟨r, by rw [sendLoop, if_pos hn, hr]⟩
    · exact ⟨(n, maxLength), if_neg hn⟩

/-- A datagram is as much of its message as the socket takes, or less by a twentieth. -/
def DatagramOf (limit : ℕ) (s datagram : Bytes) : Prop :=
  datagram <+: s ∧ datagram.length ≤ limit ∧ (datagram = s ∨ cutTo limit ≤ datagram.length)

theorem sendAll_spec {limit turns maxLength : ℕ} {messages datagrams : List Bytes}
    (hroom : cutTo limit ≤ maxLength ∨ ∀ s ∈ messages, s.length ≤ maxLength)
    (h : sendAll limit turns maxLength messages = some datagrams) :
    List.Forall₂ (DatagramOf limit) messages datagrams := by
  induction messages generalizing maxLength datagrams with
  | nil =>
    cases h
    exact .nil
  | cons s messages ih =>
    obtain ⟨⟨maxLength', d⟩, hsend, h⟩ := Option.bind_eq_some_iff.mp h
    obtain ⟨rest, hrest, rfl⟩ := Option.map_eq_some_iff.mp h
    obtain ⟨r, hr, hpair⟩ := Option.map_eq_some_iff.mp hsend
    cases hpair
    obtain ⟨hlimit, hle, hlast⟩ := sendLoop_spec hr
    have hlength : (s.take r.1).length = r.1 := by
      rw [List.length_take]
      exact Nat.min_eq_left (hle.trans (Nat.min_le_left _ _))
    refine .cons ⟨List.take_prefix _ _, hlength.trans_le hlimit, ?_⟩ (ih ?_ hrest)
    · rw [hlength]
      rcases hlast with hr | ⟨_, hcut⟩
      · have hmax : cutTo limit ≤ maxLength ∨ s.length ≤ maxLength :=
          hroom.imp_right fun hall => hall s List.mem_cons_self
        by_cases hfits : s.length ≤ maxLength
        · left
          rw [hr, Nat.min_eq_left hfits]
          exact List.take_length
        · right
          rw [hr, Nat.min_eq_right (Nat.le_of_not_le hfits)]
          exact hmax.resolve_right hfits
      · exact Or.inr hcut
    · rcases hlast with hr | ⟨hmax, hcut⟩
      · rw [hr]
        exact hroom.imp_right fun hall s' hs' => hall s' (List.mem_cons_of_mem _ hs')
      · exact Or.inl (hmax ▸ hcut)

theorem sendAll_ends {limit turns : ℕ} {messages : List Bytes}
    (h : 19 ≤ limit ∨ ∀ s ∈ messages, s.length ≤ limit)
    (hturns : ∀ s ∈ messages, s.length ≤ turns) (maxLength : ℕ) :
    ∃ datagrams, sendAll limit (turns + 1) maxLength messages = some datagrams := by
  induction messages generalizing maxLength with
  | nil => exact ⟨[], rfl⟩
  | cons s messages ih =>
    have hmin : min s.length maxLength ≤ s.length := Nat.min_le_left _ _
    have hends : 19 ≤ limit ∨ min s.length maxLength ≤ limit :=
      h.imp_right fun hall => hmin.trans (hall s List.mem_cons_self)
    obtain ⟨r, hr⟩ := sendLoop_ends hends (hmin.trans (hturns s List.mem_cons_self)) maxLength
    obtain ⟨rest, hrest⟩ := ih (h.imp_right fun hall s' hs' => hall s' (List.mem_cons_of_mem _ hs'))
      (fun s' hs' => hturns s' (List.mem_cons_of_mem _ hs')) r.2
    refine ⟨s.take r.1 :: rest, ?_⟩
    simp only [sendAll, sendToSyslogFd, hr, Option.map_some, Option.bind_some, hrest]

theorem sendAll_diverges {limit turns maxLength : ℕ} (hlimit : limit < 19)
    {messages datagrams : List Bytes} (hmax : ∀ s ∈ messages, s.length ≤ maxLength)
    (h : sendAll limit turns maxLength messages = some datagrams) :
    ∀ s ∈ messages, s.length ≤ limit := by
  induction messages generalizing datagrams with
  | nil => simp
  | cons s messages ih =>
    obtain ⟨⟨maxLength', d⟩, hsend, h⟩ := Option.bind_eq_some_iff.mp h
    obtain ⟨rest, hrest, rfl⟩ := Option.map_eq_some_iff.mp h
    obtain ⟨r, hr, hpair⟩ := Option.map_eq_some_iff.mp hsend
    cases hpair
    have hfits : min s.length maxLength = s.length := Nat.min_eq_left (hmax s List.mem_cons_self)
    have hs : s.length ≤ limit := by
      by_contra hlong
      rw [hfits, sendLoop_diverges hlimit turns (Nat.lt_of_not_le hlong)] at hr
      cases hr
    have hsame : r = (s.length, maxLength) := by
      cases turns with
      | zero => cases hr
      | succ turns =>
        rw [hfits, sendLoop, if_neg (Nat.not_lt_of_le hs)] at hr
        exact (Option.some.inj hr).symm
    rw [hsame] at hrest
    intro s' hs'
    rcases List.mem_cons.mp hs' with rfl | hs'
    · exact hs
    · exact ih (fun s' hs' => hmax s' (List.mem_cons_of_mem _ hs')) hrest s' hs'

/-- All of the messages are sent exactly if the socket takes 19 bytes or every message whole, and
what is sent are their beginnings, none of them shorter than nineteen twentieths of what the
socket takes unless it is the message. -/
theorem syslog_datagrams (limit : ℕ) {messages : List Bytes}
    (hmessages : ∀ s ∈ messages, s.length ≤ sizeMax) :
    ((∃ turns datagrams, sendAll limit turns sizeMax messages = some datagrams) ↔
      19 ≤ limit ∨ ∀ s ∈ messages, s.length ≤ limit) ∧
    ∀ turns datagrams, sendAll limit turns sizeMax messages = some datagrams →
      List.Forall₂ (DatagramOf limit) messages datagrams := by
  refine ⟨⟨?_, fun h => ⟨sizeMax + 1, sendAll_ends h hmessages sizeMax⟩⟩,
    fun turns datagrams h => sendAll_spec (Or.inr hmessages) h⟩
  rintro ⟨turns, datagrams, h⟩
  by_cases hlimit : limit < 19
  · exact Or.inr (sendAll_diverges hlimit hmessages h)
  · exact Or.inl (Nat.le_of_not_lt hlimit)

theorem syslog_datagrams_sample :
    ((∃ turns datagrams, sendAll 19 turns sizeMax [List.replicate 40 65, [66]] = some datagrams) ↔
      19 ≤ 19 ∨ ∀ s ∈ [List.replicate 40 (65 : UInt8), [66]], s.length ≤ 19) ∧
    ∀ turns datagrams, sendAll 19 turns sizeMax [List.replicate 40 65, [66]] = some datagrams →
      List.Forall₂ (DatagramOf 19) [List.replicate 40 65, [66]] datagrams :=
  syslog_datagrams 19 (by simp [sizeMax])

end MemoryLeak.Log
