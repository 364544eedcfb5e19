import Mathlib.Data.List.Basic
import Mathlib.Logic.Function.Basic

/-!
# Registers saved on a stack

A processor pushes and pops lists of registers of up to 32 bits. The stack pointer and the memory count 32-bit words.

* `pushAll_slot`: where a register is saved.
* `popAll_slot`: from where it is restored.
-/

namespace Machine

open List Function

structure Cpu (R : Type) (width : R → ℕ) where
  reg : (r : R) → BitVec (width r)
  sp : ℕ
  mem : ℕ → BitVec 32

variable {R : Type} {width : R → ℕ}

namespace Cpu

def pushWord (m : Cpu R width) (w : BitVec 32) : Cpu R width :=
  { m with sp := m.sp - 1, mem := update m.mem (m.sp - 1) w }

def push (m : Cpu R width) (r : R) : Cpu R width := m.pushWord ((m.reg r).setWidth 32)

def pushWords (m : Cpu R width) (ws : List (BitVec 32)) : Cpu R width := ws.foldl pushWord m

def pushAll (m : Cpu R width) (rs : List R) : Cpu R width := rs.foldl push m

theorem pushWords_spec (m : Cpu R width) (ws : List (BitVec 32)) :
    (m.pushWords ws).reg = m.reg ∧ (m.pushWords ws).sp = m.sp - ws.length := by
  induction ws generalizing m with
  | nil => exact ⟨rfl, rfl⟩
  | cons w ws ih =>
    obtain ⟨hreg, hsp⟩ := ih (m.pushWord w)
    refine ⟨hreg, hsp.trans ?_⟩
    change m.sp - 1 - ws.length = m.sp - (ws.length + 1)
    omega

theorem pushWords_mem {m : Cpu R width} {ws : List (BitVec 32)} {a : ℕ} (hroom : ws.length ≤ m.sp)
    (ha : a < m.sp - ws.length ∨ m.sp ≤ a) : (m.pushWords ws).mem a = m.mem a := by
  induction ws generalizing m with
  | nil => rfl
  | cons w ws ih =>
    rw [length_cons] at hroom ha
    have hsp : (m.pushWord w).sp = m.sp - 1 := rfl
    have hne : a ≠ m.sp - 1 := by omega
    calc ((m.pushWord w).pushWords ws).mem a = (m.pushWord w).mem a := ih (by omega) (by omega)
      _ = m.mem a := update_of_ne hne _ _

theorem pushAll_eq (m : Cpu R width) (rs : List R) :
    m.pushAll rs = m.pushWords (rs.map fun r => (m.reg r).setWidth 32) := by
  induction rs generalizing m with
  | nil => rfl
  | cons r rs ih => exact ih (m.push r)

theorem pushAll_sp (m : Cpu R width) (rs : List R) : (m.pushAll rs).sp = m.sp - rs.length := by
  rw [pushAll_eq, (pushWords_spec _ _).2, length_map]

theorem pushAll_reg (m : Cpu R width) (rs : List R) : (m.pushAll rs).reg = m.reg := by
  rw [pushAll_eq, (pushWords_spec _ _).1]

theorem pushAll_mem {m : Cpu R width} {rs : List R} {a : ℕ} (hroom : rs.length ≤ m.sp)
    (ha : a < m.sp - rs.length ∨ m.sp ≤ a) : (m.pushAll rs).mem a = m.mem a := by
  rw [pushAll_eq]
  exact pushWords_mem (by rwa [length_map]) (by rwa [length_map])

theorem pushAll_slot (m : Cpu R width) (rs ss : List R) (r : R) (hroom : (rs ++ r :: ss).length ≤ m.sp) :
    (m.pushAll (rs ++ r :: ss)).mem ((m.pushAll (rs ++ r :: ss)).sp + ss.length) = (m.reg r).setWidth 32 := by
  rw [length_append, length_cons] at hroom
  have happ : m.pushAll (rs ++ r :: ss) = ((m.pushAll rs).push r).pushAll ss := by
    rw [pushAll, foldl_append]
    rfl
  have hsp : ((m.pushAll rs).push r).sp = m.sp - rs.length - 1 := by
    rw [← pushAll_sp]
    rfl
  rw [happ, pushAll_sp, hsp, pushAll_mem (by omega) (by omega)]
  have hslot : m.sp - rs.length - 1 - ss.length + ss.length = (m.pushAll rs).sp - 1 := by
    rw [pushAll_sp]
    omega
  rw [hslot, push, pushAll_reg]
  exact update_self _ _ _

variable [DecidableEq R]

def pop (m : Cpu R width) (r : R) : Cpu R width :=
  { m with reg := update m.reg r ((m.mem m.sp).setWidth (width r)), sp := m.sp + 1 }

def popAll (m : Cpu R width) (rs : List R) : Cpu R width := rs.foldl pop m

theorem popAll_spec (m : Cpu R width) (rs : List R) :
    (m.popAll rs).mem = m.mem ∧ (m.popAll rs).sp = m.sp + rs.length := by
  induction rs generalizing m with
  | nil => exact ⟨rfl, rfl⟩
  | cons r rs ih =>
    obtain ⟨hmem, hsp⟩ := ih (m.pop r)
    refine ⟨hmem, hsp.trans ?_⟩
    change m.sp + 1 + rs.length = m.sp + (rs.length + 1)
    omega

theorem popAll_of_notMem {m : Cpu R width} {rs : List R} {r : R} (h : r ∉ rs) : (m.popAll rs).reg r = m.reg r := by
  induction rs generalizing m with
  | nil => rfl
  | cons s rs ih =>
    rw [mem_cons, not_or] at h
    exact (ih h.2).trans (update_of_ne h.1 _ _)

theorem popAll_slot {m : Cpu R width} {rs ss : List R} {r : R} (h : r ∉ ss) :
    (m.popAll (rs ++ r :: ss)).reg r = (m.mem (m.sp + rs.length)).setWidth (width r) := by
  have happ : m.popAll (rs ++ r :: ss) = ((m.popAll rs).pop r).popAll ss := by
    rw [popAll, foldl_append]
    rfl
  obtain ⟨hmem, hsp⟩ := popAll_spec m rs
  rw [happ, popAll_of_notMem h, pop]
  dsimp only
  rw [update_self, hmem, hsp]

end Cpu

end Machine
