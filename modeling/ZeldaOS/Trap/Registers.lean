import ZeldaOS.Machine.Stack
import Mathlib.Data.List.Infix

/-!
# Saving and restoring the registers

`per_vector_entry` pushes the registers, and pops them from the frame that `interrupt_handler` returned.

* `registers_restored`: an unmodified frame restores the registers.
-/

namespace ZeldaOS

open Machine List

/-! ## The registers -/

inductive Reg where
  | edi | esi | ebp | ebx | edx | ecx | eax | gs | fs | es | ds
  deriving DecidableEq, Repr

def Reg.width : Reg → ℕ
  | .gs | .fs | .es | .ds => 16
  | _ => 32

theorem Reg.width_le (r : Reg) : r.width ≤ 32 := by cases r <;> decide

abbrev X86 := Cpu Reg Reg.width

abbrev Registers := (r : Reg) → BitVec r.width

/-- The first fields of `struct x86_cpustate`; `vector` and `errorcode` follow. -/
def cpuState : List Reg := [.edi, .esi, .ebp, .ebx, .edx, .ecx, .eax, .gs, .fs, .es, .ds]

def savedRegs : List Reg := [.ds, .es, .fs, .gs, .eax, .ecx, .edx, .ebx, .ebp, .esi, .edi]

def restoredRegs : List Reg := [.edi, .esi, .ebp, .ebx, .edx, .ecx, .eax, .gs, .fs, .fs, .ds]

/-- The processor and the entry of the vector push some words, and `per_vector_entry` the registers. -/
def X86.trap (m : X86) (sp : ℕ) (words : List (BitVec 32)) : X86 :=
  (({ m with sp := sp } : X86).pushWords words).pushAll savedRegs

def X86.resume (m : X86) (frame : ℕ) : X86 :=
  let m' := ({ m with sp := frame } : X86).popAll restoredRegs
  { m' with sp := m'.sp + 2 }

/-! ## Runs -/

/-- A frame on some stack with the registers at the interrupt that made it. -/
structure SavedFrame where
  frame : ℕ
  reg : Registers

def SavedFrame.Holds (f : SavedFrame) (a : ℕ) : Prop := f.frame ≤ a ∧ a < f.frame + cpuState.length

instance SavedFrame.decidableHolds (f : SavedFrame) (a : ℕ) : Decidable (f.Holds a) :=
  inferInstanceAs (Decidable (_ ∧ _))

/-- The processor, and the frames that nothing has written to since they were made. -/
structure RegState where
  cpu : X86
  saved : List SavedFrame

inductive RegOp where
  /-- Code leaves some contents in the registers and stores some words. -/
  | compute (reg : Registers) (stores : List (ℕ × BitVec 32))
  | interrupt (sp : ℕ) (words : List (BitVec 32))
  | restore (frame : ℕ)

def storeAll (mem : ℕ → BitVec 32) (stores : List (ℕ × BitVec 32)) : ℕ → BitVec 32 :=
  stores.foldl (fun mem w => Function.update mem w.1 w.2) mem

def RegState.step (s : RegState) : RegOp → RegState
  | .compute reg stores =>
    ⟨{ s.cpu with reg, mem := storeAll s.cpu.mem stores }, s.saved.filter fun f => ∀ w ∈ stores, ¬f.Holds w.1⟩
  | .interrupt sp words =>
    let size := words.length + savedRegs.length
    if size ≤ sp then
      ⟨s.cpu.trap sp words, ⟨sp - size, s.cpu.reg⟩ ::
        s.saved.filter fun f => f.frame + cpuState.length ≤ sp - size ∨ sp ≤ f.frame⟩
    else s
  | .restore frame => ⟨s.cpu.resume frame, s.saved.filter fun f => f.frame ≠ frame⟩

def RegState.run (s : RegState) (ops : List RegOp) : RegState := ops.foldl RegState.step s

def SavedFrame.Intact (mem : ℕ → BitVec 32) (f : SavedFrame) : Prop :=
  ∀ r, mem (f.frame + cpuState.idxOf r) = (f.reg r).setWidth 32

theorem idxOf_cpuState_lt (r : Reg) : cpuState.idxOf r < cpuState.length := by
  cases r <;> decide

variable {mem : ℕ → BitVec 32} {f : SavedFrame}

theorem SavedFrame.Intact.congr {mem' : ℕ → BitVec 32} (h : f.Intact mem) (hmem : ∀ a, f.Holds a → mem' a = mem a) :
    f.Intact mem' := fun r => by
  rw [hmem _ ⟨Nat.le_add_right _ _, Nat.add_lt_add_left (idxOf_cpuState_lt r) _⟩, h r]

/-! ## Frames -/

theorem savedRegs_eq (r : Reg) : ∃ rs ss, savedRegs = rs ++ r :: ss ∧ ss.length = cpuState.idxOf r := by
  refine ⟨savedRegs.take (10 - cpuState.idxOf r), savedRegs.drop (11 - cpuState.idxOf r), ?_, ?_⟩ <;>
    cases r <;> rfl

variable {m : X86} {sp : ℕ} {words : List (BitVec 32)}

theorem trap_intact (hroom : words.length + savedRegs.length ≤ sp) :
    SavedFrame.Intact (m.trap sp words).mem ⟨sp - (words.length + savedRegs.length), m.reg⟩ := by
  intro r
  obtain ⟨hreg, hsp⟩ := Cpu.pushWords_spec ({ m with sp := sp } : X86) words
  obtain ⟨rs, ss, hsplit, hlen⟩ := savedRegs_eq r
  have hframe : (m.trap sp words).sp = sp - (words.length + savedRegs.length) := by
    rw [X86.trap, Cpu.pushAll_sp, hsp, Nat.sub_sub]
  have hslot := Cpu.pushAll_slot (({ m with sp := sp } : X86).pushWords words) rs ss r
    (by rw [← hsplit, hsp]; exact Nat.le_sub_of_add_le' hroom)
  rw [← hsplit, hreg] at hslot
  rw [← hframe, ← hlen]
  exact hslot

variable {a : ℕ}

theorem trap_mem (hroom : words.length + savedRegs.length ≤ sp)
    (ha : a < sp - (words.length + savedRegs.length) ∨ sp ≤ a) : (m.trap sp words).mem a = m.mem a := by
  obtain ⟨-, hsp⟩ := Cpu.pushWords_spec ({ m with sp := sp } : X86) words
  have hsp : (({ m with sp := sp } : X86).pushWords words).sp = sp - words.length := hsp
  rw [X86.trap, Cpu.pushAll_mem (by omega) (by omega)]
  exact Cpu.pushWords_mem (by dsimp only; omega) (by dsimp only; omega)

theorem storeAll_of_notMem {stores : List (ℕ × BitVec 32)} (h : ∀ w ∈ stores, w.1 ≠ a) :
    storeAll mem stores a = mem a := by
  induction stores generalizing mem with
  | nil => rfl
  | cons w stores ih =>
    obtain ⟨hw, h⟩ := forall_mem_cons.1 h
    exact (ih h).trans (Function.update_of_ne hw.symm _ _)

theorem X86.resume_reg (h : f.Intact m.mem) : (∀ r, r ≠ .fs → r ≠ .es → (m.resume f.frame).reg r = f.reg r) ∧
    (m.resume f.frame).reg .fs = f.reg .es ∧ (m.resume f.frame).reg .es = m.reg .es := by
  have hslot (r s : Reg) (rs ss : List Reg) (hsplit : restoredRegs = rs ++ r :: ss) (hr : r ∉ ss)
      (hlen : rs.length = cpuState.idxOf s) :
      (m.resume f.frame).reg r = ((f.reg s).setWidth 32).setWidth r.width := by
    change (({ m with sp := f.frame } : X86).popAll restoredRegs).reg r = _
    rw [hsplit, Cpu.popAll_slot hr, hlen]
    exact congrArg _ (h s)
  have hwidth (r : Reg) : ((f.reg r).setWidth 32).setWidth r.width = f.reg r := by
    rw [BitVec.setWidth_setWidth_of_le _ r.width_le, BitVec.setWidth_eq]
  refine ⟨fun r hfs hes => ?_, ?_, ?_⟩
  · refine (hslot r r (restoredRegs.take (cpuState.idxOf r))
      (restoredRegs.drop (cpuState.idxOf r + 1)) ?_ ?_ ?_).trans (hwidth r) <;>
    revert hfs hes <;> cases r <;> decide
  · exact (hslot .fs .es (restoredRegs.take 9) [.ds] rfl (by decide) rfl).trans (hwidth .es)
  have hnot : Reg.es ∉ restoredRegs := by decide
  change (({ m with sp := f.frame } : X86).popAll restoredRegs).reg .es = m.reg .es
  rw [Cpu.popAll_of_notMem hnot]

variable {s : RegState}

theorem intact_step (h : ∀ f ∈ s.saved, f.Intact s.cpu.mem) (op : RegOp) :
    ∀ f ∈ (s.step op).saved, f.Intact (s.step op).cpu.mem := by
  cases op with
  | compute reg stores =>
    intro f hf
    obtain ⟨hf, hw⟩ := mem_filter.1 hf
    have hw : ∀ w ∈ stores, ¬f.Holds w.1 := of_decide_eq_true hw
    exact (h f hf).congr fun a ha => storeAll_of_notMem fun w hwm he => hw w hwm (he ▸ ha)
  | interrupt sp words =>
    rw [RegState.step]
    split_ifs with hroom
    · intro f hf
      rcases mem_cons.1 hf with rfl | hf
      · exact trap_intact hroom
      obtain ⟨hf, hdisj⟩ := mem_filter.1 hf
      have hdisj := of_decide_eq_true hdisj
      refine (h f hf).congr fun a ha => trap_mem hroom ?_
      obtain ⟨hlo, hhi⟩ := ha
      omega
    · exact h
  | restore frame =>
    intro f hf
    have hmem : (s.cpu.resume frame).mem = s.cpu.mem := (Cpu.popAll_spec _ _).1
    change f.Intact (s.cpu.resume frame).mem
    exact h f (mem_of_mem_filter hf)

theorem intact_run (h : ∀ f ∈ s.saved, f.Intact s.cpu.mem) (ops : List RegOp) :
    ∀ f ∈ (s.run ops).saved, f.Intact (s.run ops).cpu.mem := by
  induction ops generalizing s with
  | nil => exact h
  | cons op ops ih => exact ih (intact_step h op)

/-- **In every run, restoring an unmodified frame gives every register its value at the interrupt, if `%fs` was `%es`
and the kernel's `%es` is the same.** -/
theorem registers_restored (m : X86) (ops : List RegOp) (f : SavedFrame)
    (hf : f ∈ (RegState.run ⟨m, []⟩ ops).saved) (hfs : f.reg .fs = f.reg .es)
    (hes : (RegState.run ⟨m, []⟩ ops).cpu.reg .es = f.reg .es) :
    ((RegState.run ⟨m, []⟩ ops).step (.restore f.frame)).cpu.reg = f.reg := by
  have hintact := intact_run (fun f hf => absurd hf not_mem_nil) ops f hf
  obtain ⟨hother, hrfs, hres⟩ := X86.resume_reg hintact
  funext r
  by_cases h1 : r = .fs
  · subst h1
    exact hrfs.trans hfs.symm
  by_cases h2 : r = .es
  · subst h2
    exact hres.trans hes
  exact hother r h1 h2

def segments (fs es : BitVec 16) : Registers
  | .fs => fs
  | .es => es
  | .gs | .ds => 0x23
  | _ => 7

theorem registers_restored_switch : ∃ s f, s = RegState.run ⟨⟨segments 0x23 0x23, 0, fun _ => 0⟩, []⟩
        [.interrupt 100 [0, 14], .compute (segments 0x23 0x23) [(60, 5)], .interrupt 50 [0, 32]] ∧
      s.saved = [⟨37, segments 0x23 0x23⟩, f] ∧ (s.step (.restore f.frame)).cpu.reg = f.reg :=
  ⟨_, ⟨87, segments 0x23 0x23⟩, rfl, by rfl, registers_restored ⟨segments 0x23 0x23, 0, fun _ => 0⟩
      [.interrupt 100 [0, 14], .compute (segments 0x23 0x23) [(60, 5)], .interrupt 50 [0, 32]]
      ⟨87, segments 0x23 0x23⟩ (.tail _ (.head _)) rfl rfl⟩

/-- **An interrupt changes an `%fs` that differs from `%es`, and a switch does not restore `%es`.** The null selector
can be loaded into both by any program. -/
theorem registers_not_restored :
    (∃ s f, s = RegState.run ⟨⟨segments 0 0x23, 0, fun _ => 0⟩, []⟩ [.interrupt 100 [0, 14]] ∧
      s.saved = [f] ∧ f.reg .fs = 0 ∧ (s.step (.restore f.frame)).cpu.reg .fs = 0x23) ∧
    ∃ s f, s = RegState.run ⟨⟨segments 0x23 0x23, 0, fun _ => 0⟩, []⟩
        [.interrupt 100 [0, 14], .compute (segments 0 0) []] ∧
      s.saved = [f] ∧ f.reg .es = 0x23 ∧ (s.step (.restore f.frame)).cpu.reg .es = 0 :=
  ⟨⟨_, ⟨87, segments 0 0x23⟩, rfl, rfl, rfl, rfl⟩, ⟨_, ⟨87, segments 0x23 0x23⟩, rfl, rfl, rfl, rfl⟩⟩

end ZeldaOS
