import Chip8.Proofs.Listing.Lines
import Chip8.Proofs.Machine.Stores

/-!
Traces. A step logs the address, the word and the text of the instruction that it executes, and so
does a listing for each word of a program. As long as the program is in its place they agree.
-/

namespace Chip8

/-- Whether a line of the log tells of an executed instruction. -/
def Event.isTrace : Event → Bool
  | .executing .. => true
  | .loaded _ | .faulted .. => false

def Outcome.traces {α : Type} (o : Outcome α) : List String :=
  (o.log.toList.filter Event.isTrace).map Event.text

namespace Machine

variable {m : Machine} {i : Instruction} {p : List UInt8}

/-- What a history logs. -/
def log (m : Machine) : List Operation → List Event
  | [] => []
  | op :: rest => (m.perform op).log.toList ++ (m.perform op).machine.log rest

theorem log_append (m : Machine) (history later : List Operation) :
    m.log (history ++ later) = m.log history ++ (m.after history).log later := by
  induction history generalizing m with
  | nil => rfl
  | cons op rest ih =>
    rw [List.cons_append, log, log, ih, List.append_assoc]
    rfl

theorem log_steps_of_not_running (hs : m.status ≠ .running) (n : Nat) :
    m.log (List.replicate n .step) = [] := by
  have hstep : m.step.log = #[] := by
    cases h : m.status with
    | running => exact absurd h hs
    | waiting x => rw [step_of_waiting h]
    | halted => rw [step_of_halted h]
  induction n with
  | zero => rfl
  | succ n ih =>
    change m.step.log.toList ++ m.step.machine.log (List.replicate n .step) = []
    rw [hstep, step_of_not_running hs, ih]
    rfl

private theorem log_resume (n : Nat) (o : Outcome Signal) :
    (Outcome.resume n o).log.toList =
      o.log.toList ++ o.machine.log (List.replicate n .step) := by
  induction n generalizing o with
  | zero => exact (List.append_nil _).symm
  | succ n ih =>
    have hsteps : o.machine.log (List.replicate (n + 1) .step) =
        o.machine.step.log.toList ++ o.machine.step.machine.log (List.replicate n .step) := rfl
    have hlog : (o.log ++ o.machine.step.log).toList =
        o.log.toList ++ o.machine.step.log.toList := Array.toList_append
    rw [hsteps, ← List.append_assoc, ← hlog, Outcome.resume]
    split
    case isTrue hf =>
      -- The steps that the run spares itself would log nothing.
      have hrest := log_steps_of_not_running (status_of_isFinal hf) n
      rw [hrest, List.append_nil]
    case isFalse => exact ih _

/-- A run logs what its steps log. -/
theorem log_parts (m : Machine) (op : Operation) :
    m.log op.parts = (m.perform op).log.toList := by
  cases op with
  | run n => exact (log_resume n ⟨m, .ok .proceed, #[]⟩).symm
  | _ => exact List.append_nil _

theorem log_unroll (m : Machine) (history : List Operation) :
    m.log (Operation.unroll history) = m.log history := by
  induction history generalizing m with
  | nil => rfl
  | cons op rest ih =>
    rw [Operation.unroll, List.flatMap_cons, log_append, after_parts, log_parts, log]
    exact congrArg _ (ih _)

/-- An instruction is traced also where it faults. -/
theorem traces_of_decode? (hs : m.status = .running)
    (hd : Instruction.decode? m.word = some i) :
    m.step.traces = [(Event.executing m.pc m.word i).text] := by
  rw [step_of_decode? hs hd, Outcome.traces]
  cases (m.advance.execute m.pc i).2 <;> rfl

theorem traces_of_unknown (hs : m.status = .running)
    (hd : Instruction.decode? m.word = none) : m.step.traces = [] := by
  rw [step_of_unknown hs hd]
  rfl

/-- That the next step goes by a line of a listing which ends in the given text. The line shows the
address and the word that the step finds. Where it ends in question marks the step fails for that
word and traces nothing, and otherwise it traces the address, the word and the text once. -/
structure FollowsLine (m : Machine) (line text : String) : Prop where
  line_eq : line =
    "0x" ++ Numeral.hex 4 m.pc ++ " " ++ Numeral.hex 4 m.word.toNat ++ " " ++ text
  length_word : (Numeral.hex 4 m.word.toNat).length = 4
  of_marks : "???".toList <:+ line.toList →
    m.step.result = .error (.unknownInstruction m.word) ∧ m.step.traces = []
  of_text : ¬ "???".toList <:+ line.toList → m.step.traces =
    ["TRACE " ++ Numeral.hex 4 m.pc ++ ": " ++ Numeral.hex 4 m.word.toNat ++ " " ++ text]

theorem followsLine_wordLine (hs : m.status = .running) :
    m.FollowsLine (Listing.wordLine m.pc m.word) (Listing.wordText m.word) := by
  have hword : (Numeral.padded 16 4 m.word.toNat).length = 4 :=
    Numeral.length_padded_word m.word.toNat_lt
  constructor
  · rfl
  · rwa [Numeral.hex, String.length_ofList]
  · intro hmarks
    have hd : Instruction.decode? m.word = none := Listing.marks_suffix_iff.mp hmarks
    refine ⟨?_, traces_of_unknown hs hd⟩
    rw [step_of_unknown hs hd]
  · intro hmarks
    rw [Listing.marks_suffix_iff] at hmarks
    obtain ⟨i, hd⟩ := Option.ne_none_iff_exists'.mp hmarks
    rw [traces_of_decode? hs hd, Listing.wordText, hd]
    rfl

/-- That the next step of a running machine goes by the line of its word in the listing of a
program, if it finds two bytes of the program there. -/
def FollowsListing (p : List UInt8) (m : Machine) : Prop :=
  m.status = .running → ∀ i, 2 * i + 1 < p.length → m.pc = 0x200 + 2 * i →
    ∃ line text, ((Listing.text p).toList.splitOn '\n')[i]? = some line.toList ∧
      m.FollowsLine line text

theorem Carries.word_eq (h : m.Carries p) {k : Nat} (hk : k + 1 < p.length)
    (hpc : m.pc = Memory.programStart + k) : m.word = Listing.wordAt p k := by
  rw [word, hpc, Nat.add_assoc, h k (Nat.lt_of_succ_lt hk), h (k + 1) hk, Listing.wordAt]

theorem Carries.followsListing (h : m.Carries p) : m.FollowsListing p := by
  intro hs i hi hpc
  have hline := Listing.getElem?_splitOn_text hi
  have hword : m.word = Listing.wordAt p (2 * i) := h.word_eq hi hpc
  rw [← hword, ← show m.pc = Memory.programStart + 2 * i from hpc] at hline
  exact ⟨_, _, hline, followsLine_wordLine hs⟩

/-- As long as no step writes to the cells of a program that has been loaded, every step at a word
of the program goes by its line in the listing: the line tells the address, the four digits of the
word and the text that the step traces, or ends in question marks and the step fails for the word.
What a history logs is what its steps log. -/
theorem steps_follow_listing (m : Machine) (hp : p.length ≤ 3584) {history : List Operation}
    (hl : ∀ op ∈ history, ¬ op.Reloads)
    (hs : (m.load p).machine.StepsFrom (SparesProgram p.length) (Operation.unroll history)) :
    (m.load p).machine.StepsFrom (FollowsListing p) (Operation.unroll history) ∧
      (m.load p).machine.log (Operation.unroll history) = (m.load p).machine.log history := by
  have hcarries := (Carries.load m hp).stepsFrom hp
    (fun op ho => Operation.not_reloads_of_mem_unroll hl ho)
    (fun op ho => Operation.not_run_of_mem_unroll ho) hs
  exact ⟨hcarries.imp fun h => h.followsListing, log_unroll _ history⟩

/-- A program that stores digits away from itself, then a word that is no instruction and an odd
byte. -/
theorem steps_follow_listing_to_unknown_word : ∃ m, Reachable m ∧
    (∃ line text,
      ((Listing.text [0x60, 0x05, 0xF0, 0x33, 0xFF, 0xFF, 0x12]).toList.splitOn '\n')[1]? =
        some line.toList ∧ m.FollowsLine line text) ∧
    ∃ line text,
      ((Listing.text [0x60, 0x05, 0xF0, 0x33, 0xFF, 0xFF, 0x12]).toList.splitOn '\n')[2]? =
        some line.toList ∧ m.step.machine.FollowsLine line text := by
  obtain ⟨blank, hc⟩ : ∃ blank, create {} (.ofSeed 0) = .ok blank := ⟨_, rfl⟩
  let p : List UInt8 := [0x60, 0x05, 0xF0, 0x33, 0xFF, 0xFF, 0x12]
  let m := (blank.after [.load p, .step])
  obtain ⟨hs, hpc, hs', hpc', hspares⟩ : m.status = .running ∧ m.pc = 0x202 ∧
      m.step.machine.status = .running ∧ m.step.machine.pc = 0x204 ∧
      (blank.load p).machine.StepsFrom (SparesProgram p.length) (Operation.unroll [.run 3]) := by
    obtain rfl := Except.ok.inj hc
    decide +kernel
  have hloads : ∀ op ∈ [Operation.run 3], ¬ op.Reloads := fun op ho => by
    rw [List.mem_singleton.mp ho]
    exact fun ⟨_, h, _⟩ => Operation.noConfusion h
  obtain ⟨⟨-, hsecond, hthird, -⟩, -⟩ := steps_follow_listing blank (by decide) hloads hspares
  refine ⟨m, (Reachable.create hc).after _, ?_, ?_⟩
  · exact hsecond rfl hs 1 (by decide) hpc
  · exact hthird rfl hs' 2 (by decide) hpc'

end Machine

end Chip8
