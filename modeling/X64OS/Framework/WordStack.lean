import X64OS.Framework.ByteMemory
import X64OS.Framework.Words

namespace X64OS.Framework

variable {mem mem' : Mem} {a : Nat} {xs ws : List (BitVec 64)}

def WordsAt (mem : Mem) : Nat → List (BitVec 64) → Prop
  | _,[] => True
  | a,w::ws => mem.read64 a=w ∧ WordsAt mem (a+8) ws

theorem WordsAt.sameOff {s : Span} (h : WordsAt mem a ws) (hsame : Mem.SameOff s mem mem')
    (hsep : ∀ x∈s, x < a ∨ a+8*ws.length ≤ x) : WordsAt mem' a ws := by
  induction ws generalizing a with
  | nil => trivial
  | cons w ws ih =>
    rw [List.length_cons] at hsep
    refine ⟨?_,ih h.2 ?_⟩
    · rw [hsame.read64 a,h.1]
      intro x hx hword
      rw [Span.mem_mk] at hword
      have := hsep x hx
      omega
    · intro x hx
      have := hsep x hx
      omega

theorem wordsAt_append :
    WordsAt mem a (xs++ws) ↔ WordsAt mem a xs ∧ WordsAt mem (a+8*xs.length) ws := by
  induction xs generalizing a with
  | nil => simp [WordsAt]
  | cons x xs ih =>
    have hplace : a+8+8*xs.length=a+8*(x::xs).length := by
      rw [List.length_cons]
      omega
    rw [List.cons_append,WordsAt,WordsAt,ih,hplace,and_assoc]

def writeWords (mem : Mem) : Nat → List (BitVec 64) → Mem
  | _,[] => mem
  | a,w::ws => writeWords (mem.write64 a w) (a+8) ws

theorem sameOff_writeWords (mem : Mem) (a : Nat) (ws : List (BitVec 64)) :
    Mem.SameOff ⟨a,8*ws.length⟩ mem (writeWords mem a ws) := by
  induction ws generalizing mem a with
  | nil => exact fun x _ => rfl
  | cons w ws ih =>
    rw [List.length_cons]
    apply ((Mem.sameOff_write64 mem a w).widen _ _).trans ((ih _ (a+8)).widen _ _)
    all_goals omega

theorem wordsAt_writeWords (mem : Mem) (a : Nat) (ws : List (BitVec 64)) :
    WordsAt (writeWords mem a ws) a ws := by
  induction ws generalizing mem a with
  | nil => trivial
  | cons w ws ih =>
    refine ⟨?_,ih _ _⟩
    rw [writeWords,(sameOff_writeWords _ (a+8) ws).read64 a,Mem.read64_write64]
    intro x hx hword
    rw [Span.mem_mk] at hx hword
    omega

/-- A stack that grows down, in memory. -/
structure WordStack where
  mem : Mem
  stack : Nat

namespace WordStack

variable {mem₀ : Mem} {start : Nat} {u : WordStack}

def extend (u : WordStack) (xs : List (BitVec 64)) : WordStack :=
  let stack := sub64 u.stack (8*xs.length)
  ⟨writeWords u.mem stack xs,stack⟩

/-- The words that the stack got since it was at start, where memory was mem₀. -/
structure Grown (mem₀ : Mem) (start : Nat) (u : WordStack) (ws : List (BitVec 64)) : Prop where
  stack : u.stack+8*ws.length=start
  words : WordsAt u.mem u.stack ws
  same : Mem.SameOff ⟨u.stack,8*ws.length⟩ mem₀ u.mem

theorem Grown.nil (u : WordStack) : Grown u.mem u.stack u [] :=
  ⟨rfl,trivial,fun _ _ => rfl⟩

theorem Grown.extend (h : Grown mem₀ start u ws) (xs : List (BitVec 64)) (hstart : start < 2^64)
    (hroom : 8*(xs++ws).length ≤ start) : Grown mem₀ start (u.extend xs) (xs++ws) := by
  have hstack := h.stack
  rw [List.length_append] at hroom
  have hsub : sub64 u.stack (8*xs.length)=u.stack-8*xs.length := sub64_eq (by omega) (by omega)
  have hnext : u.stack-8*xs.length+8*xs.length=u.stack := by omega
  have hsame := sameOff_writeWords u.mem (u.stack-8*xs.length) xs
  refine ⟨?_,?_,?_⟩
  · rw [WordStack.extend,hsub,List.length_append]
    dsimp only
    omega
  · rw [WordStack.extend,hsub,wordsAt_append,hnext]
    refine ⟨wordsAt_writeWords _ _ _,h.words.sameOff hsame ?_⟩
    intro x hx
    rw [Span.mem_mk] at hx
    omega
  · rw [WordStack.extend,hsub,List.length_append]
    dsimp only
    apply (h.same.widen _ _).trans (hsame.widen _ _)
    all_goals omega

end WordStack

end X64OS.Framework
