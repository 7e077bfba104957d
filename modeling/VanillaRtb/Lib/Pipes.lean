import Mathlib

/-! # Pipes and the processes that hold their ends

A process has a descriptor for each end of a pipe that it holds, and hands all of them to the
processes that it forks. A pipe is at its end for its readers when it is empty and no process
holds an end to write to it.
-/

namespace VanillaRtb.Lib

inductive PipeEnd where
  | read (pipe : Nat)
  | write (pipe : Nat)
  deriving DecidableEq

/-- `ends` are the ends that a process holds, one for each descriptor. -/
structure Pipes (P : Type) where
  ends : P → List PipeEnd := fun _ => []
  content : Nat → List UInt8 := fun _ => []
  made : Nat := 0

namespace Pipes

variable {P : Type} [DecidableEq P] (s : Pipes P) (p q : P) (e : PipeEnd) (pipe : Nat)

/-- `pipe`, whose number is `made`. -/
def open_ : Pipes P :=
  { s with
    ends := Function.update s.ends p (s.ends p ++ [.read s.made, .write s.made])
    made := s.made + 1 }

def fork : Pipes P := { s with ends := Function.update s.ends q (s.ends p) }

def close : Pipes P := { s with ends := Function.update s.ends p ((s.ends p).erase e) }

/-- `dup2` to a descriptor that was not one of a pipe. -/
def dup : Pipes P := { s with ends := Function.update s.ends p (s.ends p ++ [e]) }

def exit : Pipes P := { s with ends := Function.update s.ends p [] }

def write (bytes : List UInt8) : Pipes P :=
  { s with content := Function.update s.content pipe (s.content pipe ++ bytes) }

/-- What is left when some bytes have been read. -/
def read (count : Nat) : Pipes P :=
  { s with content := Function.update s.content pipe ((s.content pipe).drop count) }

/-- One of the processes holds this end. -/
def HeldBy (ps : List P) : Prop := ∃ p ∈ ps, e ∈ s.ends p

instance (ps : List P) : Decidable (s.HeldBy e ps) := inferInstanceAs (Decidable (∃ p ∈ ps, _))

section Ends

@[simp] theorem ends_fork : (s.fork p q).ends = Function.update s.ends q (s.ends p) := rfl

@[simp] theorem ends_close : (s.close p e).ends = Function.update s.ends p ((s.ends p).erase e) :=
  rfl

@[simp] theorem ends_dup : (s.dup p e).ends = Function.update s.ends p (s.ends p ++ [e]) := rfl

@[simp] theorem ends_exit : (s.exit p).ends = Function.update s.ends p [] := rfl

end Ends

end Pipes

end VanillaRtb.Lib
