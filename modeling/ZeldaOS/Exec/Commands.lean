import ZeldaOS.Machine.Strings
import ZeldaOS.Vfs.Path

/-!
# Command lines

`resolve_commands` of `kernel/elf.c`, and the part of `call_sys_execve` that makes the line for it.

* `resolveCommands`: the loader of the first stack.
* `composeCommandLine`: the line of `call_sys_execve`.
-/

namespace ZeldaOS

open Machine

/-- A failed `ASSERT`, an access outside of an array, or a loop that does not end. -/
inductive ExecFault where
  | assertion | outOfBounds | diverge
  deriving DecidableEq, Repr

def quoteByte : UInt8 := 34
def apostrophe : UInt8 := 39

def equalsSign : UInt8 := 61

def addressSpace : ℕ := 2 ^ 32

/-! ## Tokens -/

def skipBlanks (m : Mem) : (fuel ptr : ℕ) → Except ExecFault ℕ
  | 0, _ => .error .diverge
  | n + 1, ptr => if m ptr = blank then skipBlanks m n (ptr + 1) else .ok ptr

def tokenEnd (m : Mem) : (fuel endPtr quoteCount apostropheCount : ℕ) → Except ExecFault ℕ
  | 0, _, _, _ => .error .diverge
  | n + 1, endPtr, quoteCount, apostropheCount =>
    if m endPtr = 0 then .ok endPtr
    else if m endPtr = blank then
      if quoteCount % 2 = 0 ∧ apostropheCount % 2 = 0 then .ok endPtr
      else tokenEnd m n (endPtr + 1) quoteCount apostropheCount
    else if m endPtr = quoteByte ∨ m endPtr = apostrophe then
      let quoteCount := quoteCount + if m endPtr = quoteByte then 1 else 0
      let apostropheCount := apostropheCount + if m endPtr = apostrophe then 1 else 0
      if quoteCount % 2 = 0 ∧ apostropheCount % 2 = 0 then .ok endPtr
      else tokenEnd m n (endPtr + 1) quoteCount apostropheCount
    else tokenEnd m n (endPtr + 1) quoteCount apostropheCount

def findTokens (m : Mem) : (fuel ptr : ℕ) → (stack : List (ℕ × ℕ)) → Except ExecFault (List (ℕ × ℕ))
  | 0, _, _ => .error .diverge
  | n + 1, ptr, stack =>
    if m ptr = 0 then .ok stack
    else do
      let startPtr ← skipBlanks m addressSpace ptr
      if m startPtr = 0 then .ok stack
      else do
        let endPtr ← tokenEnd m addressSpace startPtr 0 0
        if stack.length < 128 then findTokens m n (endPtr + 1) (stack ++ [(startPtr, endPtr)])
        else .error .outOfBounds

/-- The loop that moves the bytes of a word that are no quotes to its beginning. -/
def compactToken : (fuel : ℕ) → Mem → (ptrAnother ptr : ℕ) → Except ExecFault Mem
  | 0, _, _, _ => .error .diverge
  | n + 1, m, ptrAnother, ptr =>
    if m ptrAnother = 0 then .ok (m.set ptr 0)
    else if m ptrAnother = quoteByte ∨ m ptrAnother = apostrophe then compactToken n m (ptrAnother + 1) ptr
    else compactToken n (m.set ptr (m ptrAnother)) (ptrAnother + 1) (ptr + 1)

def simplifyTokens : Mem → List (ℕ × ℕ) → Except ExecFault Mem
  | m, [] => .ok m
  | m, (startPtr, endPtr) :: tokens => do
    let m ← compactToken addressSpace (m.set endPtr 0) startPtr startPtr
    simplifyTokens m tokens

def strchr (m : Mem) (target : UInt8) : (fuel ptr : ℕ) → Except ExecFault Bool
  | 0, _ => .error .diverge
  | n + 1, ptr =>
    if m ptr = 0 then .ok false
    else if m ptr = target then .ok true
    else strchr m target n (ptr + 1)

/-- The loop that looks for the executable; the length when there is none. -/
def executableIndex (m : Mem) : List ℕ → Except ExecFault ℕ
  | [] => .ok 0
  | startPtr :: starts => do
    if ← strchr m equalsSign addressSpace startPtr then
      return (← executableIndex m starts) + 1
    else .ok 0

/-- `resolve_commands`: the memory, the stack pointer and the name of the program. -/
def resolveCommands (m : Mem) (pl3StackTop : ℕ) (command : CString) :
    Except ExecFault (Mem × ℕ × ℕ) := do
  let length := command.bytes.length
  let base := pl3StackTop - (length + 1)
  let m := m.store base (command.bytes ++ [0])
  if m (base + length) ≠ 0 then .error .assertion
  else do
    let tokens ← findTokens m addressSpace base []
    let m ← simplifyTokens m tokens
    let starts := tokens.map Prod.fst
    let k ← executableIndex m starts
    match starts[k]? with
    | none => .error .outOfBounds
    | some program =>
      let esp := base / 4 * 4 - 4
      let pointers := 0 :: starts.take k ++ 0 :: (starts.drop k).reverse
      let m := pushWords m esp pointers
      let esp := esp - 4 * pointers.length
      let m := pushWords m esp [esp + 4, starts.length - k]
      let esp := esp - 8
      if esp % 2 ≠ 0 then .error .assertion else .ok (m, esp, program)

/-! ## The line -/

/-- A string of the environment: each `=` is followed by an apostrophe. -/
def composeEnv (env : CString) : List UInt8 :=
  env.bytes.flatMap (fun b => if b = equalsSign then [equalsSign, apostrophe] else [b]) ++ [apostrophe, blank]

def composeArg (arg : CString) : List UInt8 := apostrophe :: arg.bytes ++ [apostrophe, blank]

/-- The bytes that `call_sys_execve` stores to `commands_line`, which was zero. -/
def composeCommandLine (argv envp : List CString) : List UInt8 :=
  envp.flatMap composeEnv ++ argv.flatMap composeArg

end ZeldaOS
