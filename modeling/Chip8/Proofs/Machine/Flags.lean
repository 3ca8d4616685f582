import Chip8.Proofs.Machine.Frame

/-!
Arithmetic and the flag. Operands are read before anything is written and the flag is written last,
so it is right also where it is an operand or the target, and with the result it tells what has been
carried or shifted out.
-/

namespace Chip8

namespace Registers

variable {v : Registers} {x b c : UInt8}

theorem get_flag_setWithFlag (v : Registers) (x b c : UInt8) : (v.setWithFlag x b c).get 15 = c :=
  get_set_self ..

theorem get_setWithFlag_self (hx : x.toNat < 15) : (v.setWithFlag x b c).get x = b := by
  rw [setWithFlag, get_set_flag hx, get_set_self]

end Registers

namespace Machine

/-- The number of a flag that tells whether a statement holds. -/
theorem toNat_ite (q : Prop) [Decidable q] :
    (if q then 1 else 0 : UInt8).toNat = if q then 1 else 0 := by
  split <;> rfl

variable {m : Machine} {i : Instruction} {x y : UInt8} {a b flag : Nat} {p : Nat → Nat → Prop}

/-- That the next step leaves the given flag, and that `p` holds of the number that it leaves in
register `x` and of the flag, unless these are one register. -/
structure SetsFlag (m : Machine) (x : UInt8) (flag : Nat) (p : Nat → Nat → Prop) : Prop where
  result_eq : m.step.result = .ok .proceed
  machine_eq : m.step.machine =
    { m with pc := (m.pc + 2) % 4096, registers := m.step.machine.registers }
  flag_eq : (m.step.machine.registers.get 15).toNat = flag
  holds : x.toNat ≠ 15 → p (m.step.machine.registers.get x).toNat flag
  get_eq : ∀ z : UInt8, z.toNat < 15 → z.toNat ≠ x.toNat →
    m.step.machine.registers.get z = m.registers.get z

theorem SetsFlag.of_execute {c g : UInt8} (hx : x.toNat < 16) (hs : m.status = .running)
    (hd : Instruction.decode? m.word = some i)
    (he : m.advance.execute m.pc i =
      ({ m.advance with registers := m.registers.setWithFlag x c g }, .ok .proceed))
    (hg : g.toNat = flag) (hp : p c.toNat flag) : m.SetsFlag x flag p := by
  have hstep := step_of_decode? hs hd
  rw [he] at hstep
  have hregisters : m.step.machine.registers = m.registers.setWithFlag x c g := by rw [hstep]
  constructor
  case result_eq => rw [hstep]
  case machine_eq =>
    rw [hstep]
    rfl
  case flag_eq => rw [hregisters, Registers.get_flag_setWithFlag, hg]
  case holds =>
    intro hne
    rwa [hregisters, Registers.get_setWithFlag_self (by omega)]
  case get_eq =>
    intro z hz hne
    rw [hregisters, Registers.get_setWithFlag_of_ne (by omega) (by omega)]

theorem Arithmetic.exists_code_eq {n : Nat} (hn : n < 4) : ∃ f : Arithmetic, f.code = n :=
  match n with
  | 0 => ⟨.copy, rfl⟩
  | 1 => ⟨.or, rfl⟩
  | 2 => ⟨.and, rfl⟩
  | 3 => ⟨.xor, rfl⟩

/-- That the next step completes and leaves the flag as it is. -/
structure KeepsFlag (m : Machine) : Prop where
  result_eq : m.step.result = .ok .proceed
  flag_eq : m.step.machine.registers.get 15 = m.registers.get 15

theorem KeepsFlag.of_execute (hs : m.status = .running)
    (hd : Instruction.decode? m.word = some i) (hr : (m.advance.execute m.pc i).2 = .ok .proceed)
    (hi : ¬ i.Sets 15) : m.KeepsFlag := by
  have hstep := step_of_decode? hs hd
  constructor
  · rw [hstep, hr]
  · rw [hstep]
    exact get_execute hi

/-- What the next step does if it is arithmetic on registers `x` and `y`, which hold `a` and `b`.
The word at the program counter tells the operation. -/
structure Calculates (m : Machine) (x y : UInt8) (a b : Nat) : Prop where
  keep : ∀ n < 4, m.word.toNat = 0x8000 + 256 * x.toNat + 16 * y.toNat + n →
    x.toNat ≠ 15 → m.KeepsFlag
  keep_of_byte : m.word.toNat / 256 = 0x70 + x.toNat → x.toNat ≠ 15 → m.KeepsFlag
  add : m.word.toNat = 0x8000 + 256 * x.toNat + 16 * y.toNat + 0x4 →
    m.SetsFlag x ((a + b) / 256) fun result flag => 256 * flag + result = a + b
  subtract : m.word.toNat = 0x8000 + 256 * x.toNat + 16 * y.toNat + 0x5 →
    m.SetsFlag x (if b < a then 1 else 0) fun result _ => (result : Int) = (a - b : Int) % 256
  shiftRight : m.word.toNat = 0x8000 + 256 * x.toNat + 16 * y.toNat + 0x6 →
    m.SetsFlag x (a % 2) fun result flag => 2 * result + flag = a
  subtractFrom : m.word.toNat = 0x8000 + 256 * x.toNat + 16 * y.toNat + 0x7 →
    m.SetsFlag x (if a < b then 1 else 0) fun result _ => (result : Int) = (b - a : Int) % 256
  shiftLeft : m.word.toNat = 0x8000 + 256 * x.toNat + 16 * y.toNat + 0xE →
    m.SetsFlag x (a / 128) fun result flag => 256 * flag + result = 2 * a

/-- That the next two steps leave register `x` as it is and set the flag as given. -/
structure AddsBack (m : Machine) (x : UInt8) (flag : Nat) : Prop where
  get_eq : m.step.machine.step.machine.registers.get x = m.registers.get x
  flag_eq : (m.step.machine.step.machine.registers.get 15).toNat = flag

section Operations

variable (hs : m.status = .running) (hx : x.toNat < 16) (hy : y.toNat < 16)

include hs hx hy

theorem keepsFlag_of_combine (f : Arithmetic) (hf : f.code < 4)
    (hw : m.word.toNat = 0x8000 + 256 * x.toNat + 16 * y.toNat + f.code) (hne : x.toNat ≠ 15) :
    m.KeepsFlag := by
  refine .of_execute hs (Instruction.decode?_of_combine hx hy hw) ?_ ?_
  · cases f <;> rfl
  · show ¬ (15 = x.toNat % 16 ∨ 4 ≤ f.code ∧ 15 = 15)
    omega

theorem setsFlag_of_combine (f : Arithmetic) {c g : UInt8}
    (hf : f.apply (m.registers.get x) (m.registers.get y) = (c, some g))
    (hw : m.word.toNat = 0x8000 + 256 * x.toNat + 16 * y.toNat + f.code)
    (hg : g.toNat = flag) (hp : p c.toNat flag) : m.SetsFlag x flag p := by
  refine .of_execute hx hs (Instruction.decode?_of_combine hx hy hw) ?_ hg hp
  have hf : f.apply (m.advance.registers.get x) (m.advance.registers.get y) = (c, some g) := hf
  simp only [execute, hf]
  rfl

theorem setsFlag_of_shift (d : Direction) {c g : UInt8}
    (hd : d.apply (m.registers.get x) = (c, g))
    (hw : m.word.toNat = 0x8000 + 256 * x.toNat + 16 * y.toNat + d.code)
    (hg : g.toNat = flag) (hp : p c.toNat flag) : m.SetsFlag x flag p := by
  refine .of_execute hx hs (Instruction.decode?_of_shift hx hy hw) ?_ hg hp
  have hd : d.apply (m.advance.registers.get x) = (c, g) := hd
  simp only [execute, hd]
  rfl

theorem calculates : m.Calculates x y (m.registers.get x).toNat (m.registers.get y).toNat := by
  have ha : (m.registers.get x).toNat < 256 := (m.registers.get x).toNat_lt
  have hb : (m.registers.get y).toNat < 256 := (m.registers.get y).toNat_lt
  constructor
  case keep =>
    intro n hn hw hne
    obtain ⟨f, rfl⟩ := Arithmetic.exists_code_eq hn
    exact keepsFlag_of_combine hs hx hy f hn hw hne
  case keep_of_byte =>
    intro hw hne
    refine .of_execute hs (Instruction.decode?_of_addByte hx hw) rfl ?_
    show ¬ 15 = x.toNat % 16
    omega
  case add =>
    intro hw
    refine setsFlag_of_combine hs hx hy .add rfl hw ?_ ?_
    · rw [toNat_ite]
      split <;> omega
    · rw [UInt8.toNat_add]
      omega
  case subtract =>
    intro hw
    refine setsFlag_of_combine hs hx hy .subtract rfl hw ?_ ?_
    · rw [toNat_ite]
      rfl
    · rw [UInt8.toNat_sub]
      omega
  case shiftRight =>
    intro hw
    refine setsFlag_of_shift hs hx hy .right rfl hw ?_ ?_
    · rw [UInt8.toNat_mod]
      rfl
    · rw [UInt8.toNat_div]
      exact Nat.div_add_mod _ 2
  case subtractFrom =>
    intro hw
    refine setsFlag_of_combine hs hx hy .subtractFrom rfl hw ?_ ?_
    · rw [toNat_ite]
      rfl
    · rw [UInt8.toNat_sub]
      omega
  case shiftLeft =>
    intro hw
    refine setsFlag_of_shift hs hx hy .left rfl hw ?_ ?_
    · rw [UInt8.toNat_div]
      rfl
    · rw [UInt8.toNat_mul]
      show 256 * (_ / 128) + _ * 2 % 256 = 2 * _
      omega

/-- A sum after a difference wraps around exactly if the difference has. -/
theorem addsBack (hne : x.toNat ≠ y.toNat) (hxf : x.toNat ≠ 15) (hyf : y.toNat ≠ 15)
    (hw : m.word.toNat = 0x8000 + 256 * x.toNat + 16 * y.toNat + 0x5)
    (hw' : m.step.machine.word.toNat = 0x8000 + 256 * x.toNat + 16 * y.toNat + 0x4) :
    m.AddsBack x (if (m.registers.get x).toNat < (m.registers.get y).toNat then 1 else 0) := by
  have hdifference := (calculates hs hx hy).subtract hw
  have hs' : m.step.machine.status = .running := by
    rw [hdifference.machine_eq]
    exact hs
  have hsum := (calculates hs' hx hy).add hw'
  -- the sum adds what was taken away: the difference has left `y` alone
  have hy' : m.step.machine.registers.get y = m.registers.get y :=
    hdifference.get_eq y (by omega) hne.symm
  have hresult := hdifference.holds hxf
  have hresult' := hsum.holds hxf
  have hflag := hsum.flag_eq
  rw [hy'] at hresult' hflag
  have ha : (m.registers.get x).toNat < 256 := (m.registers.get x).toNat_lt
  have hb : (m.registers.get y).toNat < 256 := (m.registers.get y).toNat_lt
  constructor
  · refine UInt8.toNat_inj.mp ?_
    omega
  · rw [hflag]
    split <;> omega

end Operations

/-- Arithmetic on any two registers, also where they are one or the flag is among them. Where they
are two and neither is the flag, a sum takes back a difference. -/
theorem arithmetic_sets_flag (hs : m.status = .running) (hx : x.toNat < 16) (hy : y.toNat < 16) :
    m.Calculates x y (m.registers.get x).toNat (m.registers.get y).toNat ∧
      (x.toNat ≠ y.toNat → x.toNat ≠ 15 → y.toNat ≠ 15 →
        m.word.toNat = 0x8000 + 256 * x.toNat + 16 * y.toNat + 0x5 →
        m.step.machine.word.toNat = 0x8000 + 256 * x.toNat + 16 * y.toNat + 0x4 →
        m.AddsBack x (if (m.registers.get x).toNat < (m.registers.get y).toNat then 1 else 0)) :=
  ⟨calculates hs hx hy, addsBack hs hx hy⟩

/-- A sum of the flag with itself, then a difference that wraps around and the sum that takes it
back. -/
theorem arithmetic_sets_flag_on_itself : ∃ m w, Reachable m ∧ m.registers.get 15 = 0xC8 ∧
    m.word = 0x8FF4 ∧ m.step.machine.registers.get 15 = 1 ∧ Reachable w ∧
    w.registers.get 0 = 3 ∧ w.registers.get 1 = 5 ∧ w.word = 0x8015 ∧
    w.step.machine.registers.get 0 = 0xFE ∧ w.AddsBack 0 1 := by
  have hb := @Reachable.create {} (.ofSeed 0) _ rfl
  let p : List UInt8 :=
    [0x6F, 0xC8, 0x8F, 0xF4, 0x60, 0x03, 0x61, 0x05, 0x80, 0x15, 0x80, 0x14]
  obtain ⟨m, hm, hs, hf, hw⟩ : ∃ m, Reachable m ∧ m.status = .running ∧
      m.registers.get 15 = 0xC8 ∧ m.word = 0x8FF4 :=
    ⟨_, hb.after [.load p, .step], by decide +kernel⟩
  obtain ⟨w, hm', hs', h0, h1, hw', hnext⟩ : ∃ w, Reachable w ∧ w.status = .running ∧
      w.registers.get 0 = 3 ∧ w.registers.get 1 = 5 ∧ w.word = 0x8015 ∧
      w.step.machine.word = 0x8014 :=
    ⟨_, hb.after [.load p, .run 4], by decide +kernel⟩
  obtain ⟨hsum, -⟩ := @arithmetic_sets_flag m 15 15 hs (by decide) (by decide)
  obtain ⟨hdifference, hback⟩ := @arithmetic_sets_flag w 0 1 hs' (by decide) (by decide)
  have hflag := (hsum.add (by rw [hw]; decide)).flag_eq
  have hresult := (hdifference.subtract (by rw [hw']; decide)).holds (by decide)
  have hback := hback (by decide) (by decide) (by decide) (by rw [hw']; decide)
    (by rw [hnext]; decide)
  rw [hf] at hflag
  rw [h0, h1] at hresult hback
  refine ⟨m, w, hm, hf, hw, UInt8.toNat_inj.mp hflag, hm', h0, h1, hw', ?_, hback⟩
  exact UInt8.toNat_inj.mp (Int.ofNat.inj hresult)

end Machine

end Chip8
