import VanillaRtb.Campaign.Commands
import VanillaRtb.Lib.ReadModifyWrite

/-! # Handlers that share a campaign cache

Every call on the cache holds its mutex, but a win notice makes two of them: what it writes
back is what it read in the first, charged. A write of another handler in between is undone.
-/

namespace VanillaRtb.Campaign

open Lib Datacache

/-- What the processes run on the cache they share. -/
inductive SharedHandler where
  | winNotice (notice : WinNotice)
  | post (m : CampaignMatch)

/-- The handler as a whole. -/
def SharedHandler.command : SharedHandler → Command
  | .winNotice notice => .winNotice notice
  | .post m => .post m

/-- Before the first call, between the two calls of a win notice with the record that the
    first one copied, and after the last. -/
abbrev HandlerPhase := ReadModifyWrite.Phase CampaignBudget

structure SharedCache where
  cache : BudgetCache
  handlers : List (SharedHandler × HandlerPhase)

namespace SharedCache

/-- All handlers before their first call. -/
def start (cache : BudgetCache) (handlers : List SharedHandler) : SharedCache where
  cache
  handlers := handlers.map fun handler => (handler, .ready)

/-- What a handler does up to and including its next call on the cache. -/
def turn (c : BudgetCache) : SharedHandler → HandlerPhase → Option (BudgetCache × HandlerPhase)
  | .winNotice notice, .ready =>
      match notice.charge with
      | none => some (c, .done)
      | some (campaignId, _) =>
          match c.retrieve campaignId with
          | .ok [] => some (c, .done)
          | .ok (budget :: _) => some (c, .read budget)
          | .error _ => none
  | .winNotice notice, .read budget =>
      match notice.charge with
      | none => none
      | some (campaignId, price) =>
          (c.updateSame (budget.updatePrice price) campaignId).toOption.map
            fun found => (found.1, .done)
  | .post m, .ready =>
      match m.stored with
      | none => some (c, .done)
      | some (data, campaignId) =>
          (c.updateSame data campaignId).toOption.map fun found => (found.1, .done)
  | _, _ => none

/-- The `i`-th handler takes a turn. -/
def step (s : SharedCache) (i : Nat) : Option SharedCache := do
  let (handler, phase) ← s.handlers[i]?
  let (cache, phase) ← turn s.cache handler phase
  pure { cache, handlers := s.handlers.set i (handler, phase) }

def Ended (s : SharedCache) : Prop := ∀ handler ∈ s.handlers, handler.2.isDone = true

instance (s : SharedCache) : Decidable s.Ended := inferInstanceAs (Decidable (∀ _ ∈ _, _))

end SharedCache

/-- The cache holds what the same handlers make of it one after the other, in some order. -/
def SerialOutcome (cache : BudgetCache) (handlers : List SharedHandler) (final : BudgetCache) :
    Prop :=
  ∃ order : List SharedHandler, order.Perm handlers ∧ ∃ serial,
    Transition.exec BudgetCache.step cache (order.map SharedHandler.command) = some serial ∧
      ∀ campaignId, final.table campaignId = serial.table campaignId

/-- The campaign that a handler is about to write to, if its next turn writes. -/
def SharedHandler.writes : SharedHandler → HandlerPhase → Option UInt32
  | .winNotice notice, .read _ => notice.charge.map Prod.fst
  | .post m, .ready => m.stored.map Prod.snd
  | _, _ => none

/-- The campaign that a handler has read and not written back yet. -/
def SharedHandler.holds : SharedHandler → HandlerPhase → Option UInt32
  | .winNotice notice, .read _ => notice.charge.map Prod.fst
  | _, _ => none

/-- The turn does not write to a campaign that another handler has read and not written back. -/
def Undisturbed (s : SharedCache) (i : Nat) : Prop :=
  ∀ handler phase campaignId, s.handlers[i]? = some (handler, phase) →
    handler.writes phase = some campaignId →
      ∀ (j : Nat) other phase', j ≠ i → s.handlers[j]? = some (other, phase') →
        other.holds phase' ≠ some campaignId

section Simulation

open ReadModifyWrite (Task)

/-- What a handler does to the records. -/
def SharedHandler.task : SharedHandler → Task UInt32 CampaignBudget
  | .winNotice notice =>
      notice.charge.elim .idle fun charge =>
        .modify charge.1 fun budget => budget.updatePrice charge.2
  | .post m => m.stored.elim .idle fun p => .write p.2 p.1

variable {c d : BudgetCache} {t : Table UInt32 CampaignBudget} {handler : SharedHandler}
  {phase phase' : HandlerPhase}

/-- All of a handler at once does to the records what its command does. -/
theorem task_apply (t : Table UInt32 CampaignBudget) (handler : SharedHandler) :
    handler.task.apply t = effect t handler.command := by
  cases handler with
  | post m =>
      simp only [SharedHandler.task, SharedHandler.command, effect]
      cases m.stored <;> rfl
  | winNotice notice =>
      simp only [SharedHandler.task, SharedHandler.command, effect, noticed]
      cases notice.charge with
      | none => rfl
      | some charge =>
          simp only [Option.elim_some, Task.apply, charged]
          cases t charge.1 <;> rfl

theorem writes_eq (handler : SharedHandler) (phase : HandlerPhase) :
    handler.task.writes phase = handler.writes phase := by
  cases handler with
  | post m =>
      cases phase <;> simp only [SharedHandler.task, SharedHandler.writes] <;>
        cases m.stored <;> rfl
  | winNotice notice =>
      cases phase <;> simp only [SharedHandler.task, SharedHandler.writes] <;>
        cases notice.charge <;> rfl

theorem holds_eq (handler : SharedHandler) (phase : HandlerPhase) :
    handler.task.holds phase = handler.holds phase := by
  cases handler with
  | post m =>
      cases phase <;> simp only [SharedHandler.task, SharedHandler.holds] <;> cases m.stored <;> rfl
  | winNotice notice =>
      cases phase <;> simp only [SharedHandler.task, SharedHandler.holds] <;>
        cases notice.charge <;> rfl

/-- A turn on the cache is a turn on its records. -/
theorem turn_holds (holds : c.Holds t) (handler : SharedHandler) (phase : HandlerPhase) :
    (SharedCache.turn c handler phase = none ∧
      ReadModifyWrite.turn t handler.task phase = none) ∨
    ∃ d t' phase', SharedCache.turn c handler phase = some (d, phase') ∧
      ReadModifyWrite.turn t handler.task phase = some (t', phase') ∧ d.Holds t' := by
  cases handler with
  | post m =>
      simp only [SharedHandler.task]
      cases phase with
      | read budget => cases m.stored <;> exact .inl ⟨rfl, rfl⟩
      | done => cases m.stored <;> exact .inl ⟨rfl, rfl⟩
      | ready =>
          cases stored : m.stored with
          | none => exact .inr ⟨c, t, .done, by simp only [SharedCache.turn, stored], rfl, holds⟩
          | some p =>
              obtain ⟨d, success, run, after⟩ := CampaignCache.updateSame_holds holds p.1 p.2
              refine .inr ⟨d, _, .done, ?_, rfl, after⟩
              simp only [SharedCache.turn, stored, run]
              rfl
  | winNotice notice =>
      simp only [SharedHandler.task]
      cases charge : notice.charge with
      | none =>
          cases phase with
          | ready => exact .inr ⟨c, t, .done, by simp only [SharedCache.turn, charge], rfl, holds⟩
          | read budget => exact .inl ⟨by simp only [SharedCache.turn, charge], rfl⟩
          | done => exact .inl ⟨rfl, rfl⟩
      | some charged =>
          cases phase with
          | done => exact .inl ⟨rfl, rfl⟩
          | ready =>
              refine .inr ?_
              simp only [SharedCache.turn, charge, CampaignCache.retrieve_holds holds,
                Option.elim_some, ReadModifyWrite.turn]
              cases t charged.1 with
              | none => exact ⟨c, t, .done, rfl, rfl, holds⟩
              | some budget => exact ⟨c, t, .read budget, rfl, rfl, holds⟩
          | read budget =>
              obtain ⟨d, success, run, after⟩ :=
                CampaignCache.updateSame_holds holds (budget.updatePrice charged.2) charged.1
              refine .inr ⟨d, _, .done, ?_, rfl, after⟩
              simp only [SharedCache.turn, charge, run]
              rfl

/-- The records of the cache, and the handlers as tasks on them. -/
structure Abstracts (s : SharedCache) (a : ReadModifyWrite.State UInt32 CampaignBudget) : Prop where
  table : s.cache.Holds a.table
  threads : a.threads = s.handlers.map fun handler => (handler.1.task, handler.2)

variable {s u : SharedCache} {a : ReadModifyWrite.State UInt32 CampaignBudget} {i : Nat}

theorem Abstracts.step (abstracts : Abstracts s a) (i : Nat) :
    (s.step i = none ∧ ReadModifyWrite.step a i = none) ∨
    ∃ u b, s.step i = some u ∧ ReadModifyWrite.step a i = some b ∧ Abstracts u b := by
  unfold SharedCache.step ReadModifyWrite.step
  rw [abstracts.threads, List.getElem?_map]
  cases s.handlers[i]? with
  | none => exact .inl ⟨rfl, rfl⟩
  | some thread =>
      obtain ⟨handler, phase⟩ := thread
      simp only [bind, Option.bind, Option.map_some]
      rcases turn_holds abstracts.table handler phase with
        ⟨stuck, stuck'⟩ | ⟨cache, t', phase', turned, turned', after⟩
      · exact .inl ⟨by simp only [stuck], by simp only [stuck']⟩
      · simp only [turned, turned']
        refine .inr ⟨_, _, rfl, rfl, after, ?_⟩
        change List.set _ i (handler.task, phase') = (s.handlers.set i (handler, phase')).map _
        rw [List.map_set]

theorem Abstracts.undisturbed_iff (abstracts : Abstracts s a) (i : Nat) :
    Undisturbed s i ↔ ReadModifyWrite.Undisturbed a i := by
  constructor
  · intro undisturbed task phase k here written j other phase' apart found held
    rw [abstracts.threads, List.getElem?_map] at here found
    obtain ⟨⟨handler, phase⟩, inside, same⟩ := Option.map_eq_some_iff.mp here
    cases same
    obtain ⟨⟨handler', phase'⟩, inside', same'⟩ := Option.map_eq_some_iff.mp found
    cases same'
    rw [writes_eq] at written
    rw [holds_eq] at held
    exact undisturbed handler phase k inside written j handler' phase' apart inside' held
  · intro undisturbed handler phase campaignId inside written j other phase' apart inside' held
    rw [← writes_eq] at written
    rw [← holds_eq] at held
    have thread (j : Nat) (handler : SharedHandler) (phase : HandlerPhase)
        (there : s.handlers[j]? = some (handler, phase)) :
        a.threads[j]? = some (handler.task, phase) := by
      rw [abstracts.threads, List.getElem?_map, there]
      rfl
    exact undisturbed handler.task phase campaignId (thread i handler phase inside) written j
      other.task phase' apart (thread j other phase' inside') held

/-- The cache can go through a run exactly if its records can. -/
theorem Abstracts.exec (abstracts : Abstracts s a) (turns : List Nat) :
    (Transition.exec SharedCache.step s turns = none ∧
      Transition.exec ReadModifyWrite.step a turns = none) ∨
    ∃ u b, Transition.exec SharedCache.step s turns = some u ∧
      Transition.exec ReadModifyWrite.step a turns = some b ∧ Abstracts u b := by
  induction turns generalizing s a with
  | nil => exact .inr ⟨s, a, rfl, rfl, abstracts⟩
  | cons i turns ih =>
      simp only [Transition.exec]
      rcases abstracts.step i with ⟨stuck, stuck'⟩ | ⟨u, b, first, first', next⟩
      · rw [stuck, stuck']
        exact .inl ⟨rfl, rfl⟩
      · rw [first, first']
        exact ih next

theorem Abstracts.exec_some (abstracts : Abstracts s a)
    (run : Transition.exec SharedCache.step s turns = some u) :
    ∃ b, Transition.exec ReadModifyWrite.step a turns = some b ∧ Abstracts u b := by
  rcases abstracts.exec turns with ⟨stuck, -⟩ | ⟨u', b, first, first', last⟩
  · rw [stuck] at run
    cases run
  · obtain rfl := Option.some.inj (first.symm.trans run)
    exact ⟨b, first', last⟩

theorem Abstracts.along_iff (abstracts : Abstracts s a) (turns : List Nat) :
    Transition.Along SharedCache.step Undisturbed s turns ↔
      Transition.Along ReadModifyWrite.step ReadModifyWrite.Undisturbed a turns := by
  induction turns generalizing s a with
  | nil => exact Iff.rfl
  | cons i turns ih =>
      refine and_congr (abstracts.undisturbed_iff i) ?_
      rcases abstracts.step i with ⟨stuck, stuck'⟩ | ⟨u, b, first, first', next⟩
      · rw [stuck, stuck']
        exact iff_of_true nofun nofun
      · rw [first, first']
        simp only [Option.some.injEq, forall_eq']
        exact ih next

theorem start_abstracts (holds : c.Holds t) (handlers : List SharedHandler) :
    Abstracts (SharedCache.start c handlers)
      (ReadModifyWrite.start t (handlers.map SharedHandler.task)) := by
  refine ⟨holds, ?_⟩
  simp only [ReadModifyWrite.start, SharedCache.start, List.map_map]
  rfl

/-- Commands one after the other do to the records what each of them does. -/
theorem exec_holds (holds : c.Holds t) (commands : List Command) :
    ∃ d, Transition.exec BudgetCache.step c commands = some d ∧
      d.Holds (commands.foldl effect t) := by
  induction commands generalizing c t with
  | nil => exact ⟨c, rfl, holds⟩
  | cons command commands ih =>
      obtain ⟨next, first, after⟩ := step_holds holds command
      obtain ⟨last, rest, final⟩ := ih after
      exact ⟨last, Transition.exec_cons.mpr ⟨next, first, rest⟩, final⟩

end Simulation

/-- In a run that is never disturbed, the cache holds what the handlers make of it one after
    the other. -/
theorem serial_outcome
    (container : MultiIndex (Entity.key : Entity UInt32 CampaignBudget → UInt32) campaignPart)
    (handlers : List SharedHandler) (turns : List Nat)
    (undisturbed : Transition.Along SharedCache.step Undisturbed
      (SharedCache.start (budgetCache container) handlers) turns)
    (run : Transition.exec SharedCache.step
      (SharedCache.start (budgetCache container) handlers) turns = some u)
    (ended : u.Ended) : SerialOutcome (budgetCache container) handlers u.cache := by
  have start := start_abstracts (budgetCache_holds container) handlers
  obtain ⟨b, exec, last⟩ := start.exec_some run
  obtain ⟨order, perm, table⟩ :=
    ReadModifyWrite.serial_of_undisturbed _ _ turns ((start.along_iff turns).mp undisturbed) exec
  have all : ∀ thread ∈ b.threads, thread.2.isDone = true := by
    rw [last.threads]
    intro thread inside
    obtain ⟨handler, there, rfl⟩ := List.mem_map.mp inside
    exact ended handler there
  have tasks : b.threads.map Prod.fst = handlers.map SharedHandler.task := by
    rw [ReadModifyWrite.exec_tasks exec]
    simp only [ReadModifyWrite.start, List.map_map]
    rfl
  rw [ReadModifyWrite.finished_all all, tasks] at perm
  have image : Relation.Comp (· = List.map SharedHandler.task ·) List.Perm order handlers := by
    rw [List.eq_map_comp_perm]
    exact perm
  obtain ⟨serially, rfl, same⟩ := image
  obtain ⟨serial, alone, outcome⟩ :=
    exec_holds (budgetCache_holds container) (serially.map SharedHandler.command)
  refine ⟨serially, same, serial, alone, ?_⟩
  intro campaignId
  rw [last.table.contents, outcome.contents, table, List.foldl_map, List.foldl_map]
  simp only [task_apply]

section TwoWins

/-- Campaign 1 with a budget of ten. -/
def oneCampaign :
    MultiIndex (Entity.key : Entity UInt32 CampaignBudget → UInt32) campaignPart :=
  (MultiIndex.empty.insert { key := 1, data := { campaignId := 1, dayBudgetLimit := 10 } }).1

/-- A win at three and one at four. -/
def twoWins : List SharedHandler := [.winNotice ⟨some 3, some 1⟩, .winNotice ⟨some 4, some 1⟩]

theorem twoWins_abstracts : Abstracts (SharedCache.start (budgetCache oneCampaign) twoWins)
    (ReadModifyWrite.start (lookup oneCampaign.entries) (twoWins.map SharedHandler.task)) :=
  start_abstracts (budgetCache_holds oneCampaign) twoWins

/-- What a run of the two wins does, as it is known of its records. -/
theorem twoWins_run (turns : List Nat) (record : CampaignBudget)
    (known : (Transition.exec ReadModifyWrite.step
        (ReadModifyWrite.start (lookup oneCampaign.entries) (twoWins.map SharedHandler.task))
        turns).map (fun b => (b.table 1, b.threads.map fun thread => thread.2.isDone)) =
      some (some record, [true, true])) :
    ∃ u, Transition.exec SharedCache.step (SharedCache.start (budgetCache oneCampaign) twoWins)
      turns = some u ∧ u.Ended ∧ u.cache.table 1 = some record := by
  obtain ⟨b, here, outcome⟩ := Option.map_eq_some_iff.mp known
  rcases twoWins_abstracts.exec turns with ⟨-, stuck⟩ | ⟨u, b', run, run', last⟩
  · rw [stuck] at here
    cases here
  · obtain rfl := Option.some.inj (run'.symm.trans here)
    obtain ⟨found, ended⟩ := Prod.mk.inj outcome
    refine ⟨u, run, ?_, last.table.contents ▸ found⟩
    intro handler inside
    rw [last.threads, List.map_map] at ended
    have flag : handler.2.isDone ∈ [true, true] := ended ▸ List.mem_map_of_mem inside
    simpa using flag

/-- One win after the other. -/
theorem wins_in_turn : ∃ u,
    Transition.exec SharedCache.step (SharedCache.start (budgetCache oneCampaign) twoWins)
        [0, 0, 1, 1] = some u ∧ u.Ended ∧
      SerialOutcome (budgetCache oneCampaign) twoWins u.cache := by
  obtain ⟨u, run, ended, -⟩ := twoWins_run [0, 0, 1, 1] ⟨1, 3, 7, 0, {}⟩ rfl
  refine ⟨u, run, ended, serial_outcome oneCampaign twoWins [0, 0, 1, 1] ?_ run ended⟩
  rw [twoWins_abstracts.along_iff]
  refine ⟨?_, fun _ first => ⟨?_, fun _ second => ⟨?_, fun _ third => ⟨?_, fun _ _ => trivial⟩⟩⟩⟩
  · intro task phase k here written
    cases here
    cases written
  · cases first
    intro task phase k here written j other phase' apart found held
    match j with
    | 0 => exact apart rfl
    | 1 => cases found; cases held
    | j + 2 => cases found
  · cases first
    cases second
    intro task phase k here written
    cases here
    cases written
  · cases first
    cases second
    cases third
    intro task phase k here written j other phase' apart found held
    match j with
    | 0 => cases found; cases held
    | 1 => exact apart rfl
    | j + 2 => cases found

/-- The second win is charged to what the first had read, and the first charge is gone. -/
theorem lost_charge : ∃ u,
    Transition.exec SharedCache.step (SharedCache.start (budgetCache oneCampaign) twoWins)
        [0, 1, 0, 1] = some u ∧ u.Ended ∧
      ¬ SerialOutcome (budgetCache oneCampaign) twoWins u.cache := by
  obtain ⟨u, run, ended, left⟩ := twoWins_run [0, 1, 0, 1] ⟨1, 6, 4, 0, {}⟩ rfl
  refine ⟨u, run, ended, ?_⟩
  rintro ⟨order, perm, serial, alone, same⟩
  obtain ⟨d, alone', outcome⟩ :=
    exec_holds (budgetCache_holds oneCampaign) (order.map SharedHandler.command)
  obtain rfl := Option.some.inj (alone.symm.trans alone')
  have both : (order.map SharedHandler.command).foldl effect (lookup oneCampaign.entries) 1 =
      some ⟨1, 3, 7, 0, {}⟩ := by
    rcases List.perm_pair.mp perm with rfl | rfl
    · rfl
    · rfl
  rw [← outcome.contents, ← same 1, left] at both
  exact absurd both (by decide)

end TwoWins

end VanillaRtb.Campaign
