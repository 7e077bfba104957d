import Mathlib

/-! # One thread's queue of completions

An event loop runs the completions of posted handlers and of timer waits in the order in
which they were queued. Moving the expiry of the timer cancels the waits that are still
pending; a wait whose completion is queued stays as it is.
-/

namespace VanillaRtb.Lib

/-- A queued completion: of a handler, or of a wait and whether it was cancelled. -/
inductive Completed (H W : Type) where
  | handler (h : H)
  | wait (w : W) (aborted : Bool)
  deriving DecidableEq

variable {H W : Type}

def Completed.handler? : Completed H W → Option H
  | .handler h => some h
  | .wait _ _ => none

def Completed.owner (ownerOf : H → W) : Completed H W → W
  | .handler h => ownerOf h
  | .wait w _ => w

/-- The queue and the waits that are pending on the timer. -/
structure IoService (H W : Type) where
  queue : List (Completed H W) := []
  waiting : List W := []

namespace IoService

def post (io : IoService H W) (h : H) : IoService H W :=
  { io with queue := io.queue ++ [.handler h] }

def asyncWait (io : IoService H W) (w : W) : IoService H W :=
  { io with waiting := io.waiting ++ [w] }

/-- Every pending wait completes. -/
def complete (io : IoService H W) (aborted : Bool) : IoService H W where
  queue := io.queue ++ io.waiting.map fun w => .wait w aborted
  waiting := []

/-- The expiry of the timer is moved. -/
def expiresFromNow (io : IoService H W) : IoService H W := io.complete true

/-- The timer expires. -/
def expire (io : IoService H W) : IoService H W := io.complete false

def runOne (io : IoService H W) : Option (Completed H W × IoService H W) :=
  match io.queue with
  | [] => none
  | c :: rest => some (c, { io with queue := rest })

/-- The handlers that are queued. -/
def handlers (io : IoService H W) : List H := io.queue.filterMap Completed.handler?

/-- The owners of everything that is queued or pending. -/
def owners (ownerOf : H → W) (io : IoService H W) : List W :=
  io.queue.map (Completed.owner ownerOf) ++ io.waiting

theorem runOne_some {io rest : IoService H W} :
    io.runOne = some (c, rest) ↔ io.queue = c :: rest.queue ∧ io.waiting = rest.waiting := by
  obtain ⟨queue, waiting⟩ := io
  obtain ⟨queue', waiting'⟩ := rest
  cases queue with
  | nil => simp [runOne]
  | cons c' rest => simp [runOne, and_assoc]

section Handlers

@[simp] theorem handlers_post (io : IoService H W) (h : H) :
    (io.post h).handlers = io.handlers ++ [h] := by
  simp [handlers, post, Completed.handler?]

@[simp] theorem handlers_asyncWait (io : IoService H W) (w : W) :
    (io.asyncWait w).handlers = io.handlers := rfl

@[simp] theorem handlers_complete (io : IoService H W) (aborted : Bool) :
    (io.complete aborted).handlers = io.handlers := by
  simp [handlers, complete, Completed.handler?, List.filterMap_map, Function.comp_def]

@[simp] theorem handlers_expiresFromNow (io : IoService H W) :
    io.expiresFromNow.handlers = io.handlers := handlers_complete io true

@[simp] theorem handlers_expire (io : IoService H W) : io.expire.handlers = io.handlers :=
  handlers_complete io false

theorem handlers_runOne {io rest : IoService H W} (ran : io.runOne = some (c, rest)) :
    io.handlers = c.handler?.toList ++ rest.handlers := by
  rw [handlers, (runOne_some.mp ran).1]
  cases c with
  | handler h => rfl
  | wait w aborted => rfl

end Handlers

section Owners

variable {ownerOf : H → W}

@[simp] theorem mem_owners_post {io : IoService H W} {h : H} {w : W} :
    w ∈ (io.post h).owners ownerOf ↔ w ∈ io.owners ownerOf ∨ w = ownerOf h := by
  simp only [owners, post, List.map_append, List.mem_append, List.map_cons, List.map_nil,
    List.mem_singleton, Completed.owner]
  tauto

@[simp] theorem mem_owners_asyncWait {io : IoService H W} {w v : W} :
    w ∈ (io.asyncWait v).owners ownerOf ↔ w ∈ io.owners ownerOf ∨ w = v := by
  simp only [owners, asyncWait, List.mem_append, List.mem_singleton]
  tauto

@[simp] theorem owners_complete (io : IoService H W) (aborted : Bool) :
    (io.complete aborted).owners ownerOf = io.owners ownerOf := by
  simp [owners, complete, Completed.owner, Function.comp_def]

@[simp] theorem owners_expiresFromNow (io : IoService H W) :
    io.expiresFromNow.owners ownerOf = io.owners ownerOf := owners_complete io true

@[simp] theorem owners_expire (io : IoService H W) :
    io.expire.owners ownerOf = io.owners ownerOf := owners_complete io false

theorem owners_runOne {io rest : IoService H W} (ran : io.runOne = some (c, rest)) :
    io.owners ownerOf = c.owner ownerOf :: rest.owners ownerOf := by
  obtain ⟨queue, waiting⟩ := runOne_some.mp ran
  rw [owners, queue, waiting]
  rfl

end Owners

end IoService

end VanillaRtb.Lib
