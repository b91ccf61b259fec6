import MemoryLeak.Loops
import MemoryLeak.TextFile

/-!
# The output of a command

`lcs_bash_cmdext` reads what a command prints piece by piece into a buffer of 1025 bytes
and appends the pieces to a text.
-/
namespace MemoryLeak.Cluster
open MemoryLeak.CBytes MemoryLeak.CText MemoryLeak.Loops MemoryLeak.TextFile

/-- The rest of the output, and the string that `*text` points to. -/
structure CmdState where
  fp : Bytes
  text : Option Bytes

/-- A turn of `while(1)`. -/
def cmdTurn (s : CmdState) : Option (Turn CmdState) :=
  let (tmp, fp) := fgets 1024 s.fp
  let sz := (text tmp).length
  let s' : CmdState := ⟨fp, some (s.text.getD [] ++ text tmp)⟩
  if sz < 1024 then some (.leave s') else some (.again s')

/-- `*text` after `lcs_bash_cmdext`, `fp` being the output that `popen` opens; neither `fp` nor
`text` need be there. -/
def lcsBashCmdext (fuel : ℕ) (fp : Option Bytes) (text : Option (Option Bytes)) :
    Option (Option (Option Bytes)) :=
  match fp, text with
  | some fp, some text => (whileLoop cmdTurn fuel ⟨fp, text⟩).map fun s => some s.text
  | _, text => some text

/-- A piece is shorter than what the loop goes on for: the first turn is the last one. -/
theorem lcsBashCmdext_eq {fuel : ℕ} (hfuel : 0 < fuel) {output : Bytes}
    (hnul : (0 : UInt8) ∉ output) (old : Option Bytes) :
    lcsBashCmdext fuel (some output) (some old) =
      some (some (some (old.getD [] ++ (fgets 1024 output).1))) := by
  have htext : text (fgets 1024 output).1 = (fgets 1024 output).1 :=
    text_of_noNul fun h0 => hnul ((fgets_starts 1024 output).subset h0)
  have hturn : cmdTurn ⟨output, old⟩ =
      some (.leave ⟨(fgets 1024 output).2, some (old.getD [] ++ (fgets 1024 output).1)⟩) := by
    rw [cmdTurn]
    simp only [htext]
    exact if_pos (fgets_length_lt (by omega) output)
  rw [lcsBashCmdext, whileLoop_leave hturn hfuel, Option.map_some]

/-- The whole output is appended exactly when it is shorter than 1024 bytes and its only newline,
if any, is its last byte. -/
theorem command_output_iff (fuel : ℕ) (hfuel : 0 < fuel) (output : Bytes)
    (hnul : (0 : UInt8) ∉ output) (old : Option Bytes) :
    lcsBashCmdext fuel (some output) (some old) = some (some (some (old.getD [] ++ output))) ↔
      output.length < 1024 ∧ (10 : UInt8) ∉ output.dropLast := by
  rw [lcsBashCmdext_eq hfuel hnul, ← fgets_eq_iff (by omega : 1 < 1024)]
  simp only [Option.some.injEq, List.append_right_inj]

theorem command_output_iff_sample :
    lcsBashCmdext 1 (some [97, 10]) (some none) = some (some (some [97, 10])) ↔
      [(97 : UInt8), 10].length < 1024 ∧ (10 : UInt8) ∉ [(97 : UInt8), 10].dropLast :=
  command_output_iff 1 Nat.one_pos [97, 10] (by decide) none

/-- Of two lines the first is kept. -/
theorem second_line_is_lost :
    lcsBashCmdext 1 (some [97, 10, 98, 10]) (some none) = some (some (some [97, 10])) := by
  decide +kernel

end MemoryLeak.Cluster
