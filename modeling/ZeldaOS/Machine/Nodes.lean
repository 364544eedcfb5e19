import Mathlib.Tactic

/-!
# Binary tree nodes

Nodes with a parent and two children, named by their addresses; `0` is `NULL`.
-/

namespace Machine

open Function

@[ext] structure Nodes where
  parent : ℕ → ℕ
  left : ℕ → ℕ
  right : ℕ → ℕ

namespace Nodes

def setParent (t : Nodes) (x v : ℕ) : Nodes := { t with parent := update t.parent x v }

def setLeft (t : Nodes) (x v : ℕ) : Nodes := { t with left := update t.left x v }

def setRight (t : Nodes) (x v : ℕ) : Nodes := { t with right := update t.right x v }

def EqAt (N N' : Nodes) (x : ℕ) : Prop :=
  N'.parent x = N.parent x ∧ N'.left x = N.left x ∧ N'.right x = N.right x

section
variable (t : Nodes) (x v : ℕ)

@[simp] theorem parent_setParent : (t.setParent x v).parent = update t.parent x v := rfl

@[simp] theorem left_setParent : (t.setParent x v).left = t.left := rfl

@[simp] theorem right_setParent : (t.setParent x v).right = t.right := rfl

@[simp] theorem parent_setLeft : (t.setLeft x v).parent = t.parent := rfl

@[simp] theorem left_setLeft : (t.setLeft x v).left = update t.left x v := rfl

@[simp] theorem right_setLeft : (t.setLeft x v).right = t.right := rfl

@[simp] theorem parent_setRight : (t.setRight x v).parent = t.parent := rfl

@[simp] theorem left_setRight : (t.setRight x v).left = t.left := rfl

@[simp] theorem right_setRight : (t.setRight x v).right = update t.right x v := rfl

end

def Detached (t : Nodes) (x : ℕ) : Prop := t.parent x = 0 ∧ t.left x = 0 ∧ t.right x = 0

instance decidableDetached (t : Nodes) (x : ℕ) : Decidable (t.Detached x) :=
  inferInstanceAs (Decidable (_ ∧ _ ∧ _))

end Nodes

end Machine
