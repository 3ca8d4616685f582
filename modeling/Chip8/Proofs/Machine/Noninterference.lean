import Chip8.Proofs.Machine.History

/-!
Noninterference. A view of machines wipes out a part of them. Where no operation lets that part
show, machines that look alike answer alike and go on looking alike, over whole histories.
-/

namespace Chip8

variable {f : Machine → Machine} {α β : Type}

namespace Outcome

/-- An outcome with its machine seen through a view. -/
def view (f : Machine → Machine) (o : Outcome α) : Outcome α :=
  { o with machine := f o.machine }

variable {o o' : Outcome α}

theorem view_eq_iff : o.view f = o'.view f ↔
    f o.machine = f o'.machine ∧ o.result = o'.result ∧ o.log = o'.log := by
  obtain ⟨m, r, l⟩ := o
  obtain ⟨m', r', l'⟩ := o'
  simp only [view, Outcome.mk.injEq]

theorem view_map (g : α → β) (h : o.view f = o'.view f) : (o.map g).view f = (o'.map g).view f := by
  obtain ⟨hm, hr, hl⟩ := view_eq_iff.mp h
  exact view_eq_iff.mpr ⟨hm, congrArg (Except.map g) hr, hl⟩

end Outcome

namespace Machine

/-- Whether `P` holds wherever single operations take a step. -/
def StepsFrom (P : Machine → Prop) (m : Machine) : List Operation → Prop
  | [] => True
  | op :: ops => (op = .step → P m) ∧ (m.perform op).machine.StepsFrom P ops

instance decidableStepsFrom {P : Machine → Prop} [DecidablePred P] :
    ∀ (m : Machine) (ops : List Operation), Decidable (m.StepsFrom P ops)
  | _, [] => .isTrue trivial
  | m, op :: ops =>
    have : Decidable ((m.perform op).machine.StepsFrom P ops) :=
      decidableStepsFrom (m.perform op).machine ops
    inferInstanceAs (Decidable ((op = .step → P m) ∧ (m.perform op).machine.StepsFrom P ops))

theorem stepsFrom_append {P : Machine → Prop} {m : Machine} {ops later : List Operation} :
    m.StepsFrom P (ops ++ later) ↔ m.StepsFrom P ops ∧ (m.after ops).StepsFrom P later := by
  induction ops generalizing m with
  | nil => simp only [List.nil_append, StepsFrom, true_and, after, List.foldl_nil]
  | cons op rest ih =>
    simp only [List.cons_append, StepsFrom, ih, and_assoc]
    rfl

theorem StepsFrom.imp {P Q : Machine → Prop} (hpq : ∀ {m}, P m → Q m) {m : Machine}
    {ops : List Operation} (h : m.StepsFrom P ops) : m.StepsFrom Q ops := by
  induction ops generalizing m with
  | nil => trivial
  | cons op rest ih =>
    obtain ⟨hop, hrest⟩ := h
    exact ⟨fun ho => hpq (hop ho), ih hrest⟩

/-- Steps find no other instructions than those that are executed. -/
theorem stepsFrom_iff {Q : Instruction → Prop} {m : Machine} {ops : List Operation} :
    m.StepsFrom (fun m => ∀ i, m.next? = some i → Q i) ops ↔ ∀ i ∈ m.instructions ops, Q i := by
  induction ops generalizing m with
  | nil => simp only [StepsFrom, instructions, List.not_mem_nil, false_imp_iff, implies_true]
  | cons op rest ih =>
    have hhead : (op = .step → ∀ i, m.next? = some i → Q i) ↔
        ∀ i ∈ if op = .step then m.next?.toList else [], Q i := by
      by_cases hs : op = .step <;> simp [hs]
    simp only [StepsFrom, instructions, List.forall_mem_append, ih, hhead]

/-- That single operations keep machines alike in a view, and answer alike on them, as long as
steps are taken from safe machines only. -/
structure Noninterference (f : Machine → Machine) (Safe : Machine → Prop) : Prop where
  safe : ∀ {m m'}, f m = f m' → Safe m → Safe m'
  perform : ∀ {m m'} (op), (∀ n, op ≠ .run n) → (op = .step → Safe m) → f m = f m' →
    (m.perform op).view f = (m'.perform op).view f

namespace Noninterference

variable {Safe : Machine → Prop} {m m' : Machine}

theorem step (hf : Noninterference f Safe) (hs : Safe m) (hm : f m = f m') :
    m.step.view f = m'.step.view f := by
  have h := hf.perform .step nofun (fun _ => hs) hm
  obtain ⟨hmachine, hr, hl⟩ := Outcome.view_eq_iff.mp h
  refine Outcome.view_eq_iff.mpr ⟨hmachine, ?_, hl⟩
  change m.step.result.map some = m'.step.result.map some at hr
  cases h : m.step.result <;> cases h' : m'.step.result <;> simp_all [Except.map]

theorem machine (hf : Noninterference f Safe) (op : Operation) (hn : ∀ n, op ≠ .run n)
    (hs : op = .step → Safe m) (hm : f m = f m') :
    f (m.perform op).machine = f (m'.perform op).machine :=
  (Outcome.view_eq_iff.mp (hf.perform op hn hs hm)).1

private theorem resume (hf : Noninterference f Safe) (n : Nat) {o o' : Outcome Signal}
    (ho : o.view f = o'.view f) (hs : o.machine.StepsFrom Safe (List.replicate n .step)) :
    (Outcome.resume n o).view f = (Outcome.resume n o').view f := by
  induction n generalizing o o' with
  | zero => exact ho
  | succ n ih =>
    obtain ⟨hm, -, hl⟩ := Outcome.view_eq_iff.mp ho
    obtain ⟨hsafe, hrest⟩ := hs
    obtain ⟨hm', hr', hl'⟩ := Outcome.view_eq_iff.mp (hf.step (hsafe rfl) hm)
    have hfinal : o.machine.step.isFinal = o'.machine.step.isFinal := by
      simp only [Outcome.isFinal, hr']
    have hnext : ({ o.machine.step with log := o.log ++ o.machine.step.log } : Outcome _).view f =
        ({ o'.machine.step with log := o'.log ++ o'.machine.step.log } : Outcome _).view f :=
      Outcome.view_eq_iff.mpr ⟨hm', hr', by rw [hl, hl']⟩
    rw [Outcome.resume, Outcome.resume]
    change (if o.machine.step.isFinal = true then _ else _ : Outcome _).view f =
      (if o'.machine.step.isFinal = true then _ else _ : Outcome _).view f
    rw [hfinal]
    split
    case isTrue => exact hnext
    case isFalse => exact ih hnext hrest

/-- Every operation, runs included. -/
theorem perform_parts (hf : Noninterference f Safe) (op : Operation)
    (hs : m.StepsFrom Safe op.parts) (hm : f m = f m') :
    (m.perform op).view f = (m'.perform op).view f := by
  cases op with
  | run n =>
    have ho : (⟨m, .ok .proceed, #[]⟩ : Outcome Signal).view f =
        (⟨m', .ok .proceed, #[]⟩ : Outcome Signal).view f :=
      Outcome.view_eq_iff.mpr ⟨hm, rfl, rfl⟩
    exact Outcome.view_map some (hf.resume n ho hs)
  | _ => exact hf.perform _ nofun hs.1 hm

/-- Machines that look alike have outcomes that look alike. -/
theorem outcomes (hf : Noninterference f Safe) (history : List Operation)
    (hs : m.StepsFrom Safe (Operation.unroll history)) (hm : f m = f m') :
    (m.outcomes history).map (Outcome.view f) = (m'.outcomes history).map (Outcome.view f) := by
  induction history generalizing m m' with
  | nil => rfl
  | cons op rest ih =>
    rw [Operation.unroll, List.flatMap_cons, stepsFrom_append, after_parts] at hs
    have hop := hf.perform_parts op hs.1 hm
    simp only [Machine.outcomes, List.map_cons, hop]
    rw [ih hs.2 (Outcome.view_eq_iff.mp hop).1]

end Noninterference

end Machine

end Chip8
