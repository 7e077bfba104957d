import VanillaRtb.Campaign.Notification
import VanillaRtb.Dsl.Mappers
import VanillaRtb.Lib.Transition

/-! # The entry points of the campaign cache

Everything that writes to the cache chooses a key and a record. Loading and the slave banker
take the key from the record; a win notice writes a record back under the key it was found
by; the campaign manager takes one from the URL and the other from the body, and
`update(budget, old, new)` both from its caller.
-/

namespace VanillaRtb.Campaign

open Lib Datacache
open Dsl hiding Fault

namespace CampaignBudgetMapper

open JsonvExtractors

/-- `T(from.as_integer())`. -/
def asUint32 : JsonValue → Option UInt32
  | .integer n => some n.toUInt64.toUInt32
  | _ => none

def asUint64 : JsonValue → Option UInt64
  | .integer n => some n.toUInt64
  | _ => none

/-- `enum_adapter::create` over the values from 0 to 3: a map is searched with `compare`, in
which decimal numbers are next to integers. -/
def enumIndex : JsonValue → Option Nat
  | .integer n => if 0 ≤ n ∧ n ≤ 3 then some n.toNatClampNeg else none
  | .decimal x =>
      match (List.range 4).find? fun k => ¬ decimalBelow (Float.ofNat k) x with
      | some k => if decimalBelow x (Float.ofNat k) then none else some k
      | none => none
  | _ => none

def metricType (v : JsonValue) : Option MetricType :=
  (enumIndex v).map fun
    | 1 => .cpm
    | 2 => .cpc
    | 3 => .cpa
    | _ => .undefined

def metric (v : JsonValue) : Option CampaignBudget.Metric := do
  let type ← member v (ascii "id") metricType .undefined
  let value ← member v (ascii "value") asUint64 0
  pure { type, value }

/-- `jsonv::extract<CampaignBudget>`, nothing where it throws. -/
def campaignBudget (v : JsonValue) : Option CampaignBudget := do
  let campaignId ← member v (ascii "id") asUint32 0
  let dayBudgetLimit ← member v (ascii "budget") asUint64 0
  let dayBudgetSpent ← member v (ascii "spent") asUint64 0
  let metric ← member v (ascii "metric") metric {}
  pure { campaignId, dayBudgetLimit, dayBudgetSpent, metric }

end CampaignBudgetMapper

/-- What the URL of a command matches, and the body, nothing if it does not parse. -/
structure CampaignMatch where
  command : StdString
  digits : StdString
  data : Option JsonValue := none

namespace CampaignMatch

/-- `boost::lexical_cast<uint32_t>` of digits. -/
def campaignId (m : CampaignMatch) : Option UInt32 :=
  (Encoders.digits? m.digits).bind fun n => if n < 2 ^ 32 then some (UInt32.ofNat n) else none

/-- The one command there is; any other is an empty function, which throws. -/
def handled (m : CampaignMatch) : Option UInt32 :=
  if m.command = ascii "budget/id/" then m.campaignId else none

/-- What a handler with a body stores, nothing where it throws. -/
def stored (m : CampaignMatch) : Option (CampaignBudget × UInt32) := do
  let v ← m.data
  let data ← CampaignBudgetMapper.campaignBudget v
  let campaignId ← m.handled
  pure (data, campaignId)

end CampaignMatch

/-- What the processes around the cache ask of it; `fails` tells which insertions run out of
    memory. -/
inductive Command where
  | put (m : CampaignMatch) (fails : Bool)
  | post (m : CampaignMatch)
  | delete (m : CampaignMatch)
  | winNotice (notice : WinNotice)
  | load (file : Option (List CampaignBudget)) (fails : Nat → Bool)
  | update (budget : CampaignBudget) (oldCampaignId newCampaignId : UInt32)
  | consume (budget : CampaignBudget)

namespace BudgetCache

/-- The records that are read from the file, in their order. -/
def insertAll (fails : Nat → Bool) : Nat → List CampaignBudget → BudgetCache →
    Except Fault BudgetCache
  | _, [], c => .ok c
  | n, budget :: budgets, c => do
      let (c, _) ← c.insert budget budget.campaignId (fails n)
      insertAll fails (n + 1) budgets c

/-- `load`; a file that does not open is an exception before anything is done. -/
def load (c : BudgetCache) (file : Option (List CampaignBudget)) (fails : Nat → Bool) :
    Except Fault BudgetCache :=
  match file with
  | none => .ok c
  | some budgets => do
      let c ← EntityCache.clear c
      insertAll fails 0 budgets c

def perform (c : BudgetCache) : Command → Except Fault BudgetCache
  | .put m fails =>
      match m.stored with
      | some (data, campaignId) => (c.insert data campaignId fails).map Prod.fst
      | none => .ok c
  | .post m =>
      match m.stored with
      | some (data, campaignId) => (c.updateSame data campaignId).map Prod.fst
      | none => .ok c
  | .delete m =>
      match m.handled with
      | some campaignId => c.remove campaignId
      | none => .ok c
  | .winNotice notice =>
      (NotificationService.winNotice { cache := c } notice).map fun found => found.1.cache
  | .load file fails => load c file fails
  | .update budget oldCampaignId newCampaignId =>
      (c.update budget oldCampaignId newCampaignId fun _ => false).map Prod.fst
  | .consume budget => (c.updateSame budget budget.campaignId).map Prod.fst

def step (c : BudgetCache) (command : Command) : Option BudgetCache := (c.perform command).toOption

end BudgetCache

section Effects

variable {c : BudgetCache} {t : Table UInt32 CampaignBudget}

/-- What a command makes of the records. -/
def effect (t : Table UInt32 CampaignBudget) : Command → Table UInt32 CampaignBudget
  | .put m _ => m.stored.elim t fun p => t.add p.2 p.1
  | .post m => m.stored.elim t fun p => t.replace p.2 p.1
  | .delete m => m.handled.elim t t.drop
  | .winNotice notice => noticed t notice
  | .load file _ =>
      file.elim t fun budgets =>
        budgets.foldl (fun t budget => t.add budget.campaignId budget) Table.empty
  | .update budget oldCampaignId newCampaignId => t.rekey oldCampaignId newCampaignId budget
  | .consume budget => t.replace budget.campaignId budget

theorem insertAll_holds (holds : c.Holds t) (fails : Nat → Bool) (n : Nat)
    (budgets : List CampaignBudget) : ∃ d, BudgetCache.insertAll fails n budgets c = .ok d ∧
      d.Holds (budgets.foldl (fun t budget => t.add budget.campaignId budget) t) := by
  induction budgets generalizing c t n with
  | nil => exact ⟨c, rfl, holds⟩
  | cons budget budgets ih =>
      obtain ⟨d, success, run, after⟩ :=
        CampaignCache.insert_holds holds budget budget.campaignId (fails n)
      obtain ⟨e, rest, final⟩ := ih after (n + 1)
      refine ⟨e, ?_, final⟩
      rw [BudgetCache.insertAll, run]
      exact rest

/-- No command fails, and each does to the records what it should. -/
theorem step_holds (holds : c.Holds t) (command : Command) :
    ∃ d, c.step command = some d ∧ d.Holds (effect t command) := by
  cases command with
  | put m fails =>
      simp only [BudgetCache.step, BudgetCache.perform, effect]
      cases m.stored with
      | none => exact ⟨c, rfl, holds⟩
      | some p =>
          obtain ⟨d, success, run, after⟩ := CampaignCache.insert_holds holds p.1 p.2 fails
          exact ⟨d, by simp only [run]; rfl, after⟩
  | post m =>
      simp only [BudgetCache.step, BudgetCache.perform, effect]
      cases m.stored with
      | none => exact ⟨c, rfl, holds⟩
      | some p =>
          obtain ⟨d, success, run, after⟩ := CampaignCache.updateSame_holds holds p.1 p.2
          exact ⟨d, by simp only [run]; rfl, after⟩
  | delete m =>
      simp only [BudgetCache.step, BudgetCache.perform, effect]
      cases m.handled with
      | none => exact ⟨c, rfl, holds⟩
      | some campaignId =>
          obtain ⟨d, run, after⟩ := CampaignCache.remove_holds holds campaignId
          exact ⟨d, by simp only [run]; rfl, after⟩
  | winNotice notice =>
      obtain ⟨s, run, after⟩ := winNotice_holds (s := { cache := c }) holds notice
      refine ⟨s.cache, ?_, after⟩
      simp only [BudgetCache.step, BudgetCache.perform, run]
      rfl
  | load file fails =>
      cases file with
      | none => exact ⟨c, rfl, holds⟩
      | some budgets =>
          obtain ⟨d, emptied, none⟩ := CampaignCache.clear_holds holds
          obtain ⟨e, run, after⟩ := insertAll_holds none fails 0 budgets
          refine ⟨e, ?_, after⟩
          simp only [BudgetCache.step, BudgetCache.perform, BudgetCache.load, emptied, bind,
            Except.bind, run]
          rfl
  | update budget oldCampaignId newCampaignId =>
      obtain ⟨d, success, run, after⟩ :=
        CampaignCache.update_holds holds budget oldCampaignId newCampaignId
      exact ⟨d, by simp only [BudgetCache.step, BudgetCache.perform, run]; rfl, after⟩
  | consume budget =>
      obtain ⟨d, success, run, after⟩ :=
        CampaignCache.updateSame_holds holds budget budget.campaignId
      exact ⟨d, by simp only [BudgetCache.step, BudgetCache.perform, run]; rfl, after⟩

end Effects

section OwnIds

variable {c : BudgetCache} {t : Table UInt32 CampaignBudget}

/-- Every record is stored under the campaign id it tells itself. -/
def OwnIds (c : BudgetCache) : Prop := ∀ e ∈ c.container.entries, e.key = e.data.campaignId

/-- The command stores nothing, or a record that tells the id it is stored under. -/
def KeepsIds (c : BudgetCache) : Command → Prop
  | .put m _ => ∀ p ∈ m.stored, p.1.campaignId = p.2 ∨ c.container.hasKey p.2
  | .post m => ∀ p ∈ m.stored, p.1.campaignId = p.2 ∨ ¬ c.container.hasKey p.2
  | .update budget oldCampaignId newCampaignId =>
      budget.campaignId = newCampaignId ∨ ¬ c.container.hasKey oldCampaignId ∨
        newCampaignId ≠ oldCampaignId ∧ c.container.hasKey newCampaignId
  | .delete _ | .winNotice _ | .load _ _ | .consume _ => True

theorem ownIds_iff (holds : c.Holds t) : OwnIds c ↔ t.Keyed CampaignBudget.campaignId := by
  have unique : UniqueBy Entity.key c.container.entries := c.container.unique ()
  rw [← holds.contents]
  constructor
  · intro own k b there
    exact (own _ ((lookup_eq_some unique).mp there)).symm
  · intro keyed e inside
    exact (keyed e.key e.data ((lookup_eq_some unique).mpr inside)).symm

theorem hasKey_iff (holds : c.Holds t) (campaignId : UInt32) :
    c.container.hasKey campaignId ↔ (t campaignId).isSome := by
  rw [← holds.contents]
  exact lookup_isSome.symm

theorem keyed_replace_iff (keyed : t.Keyed CampaignBudget.campaignId) (campaignId : UInt32)
    (budget : CampaignBudget) :
    (t.replace campaignId budget).Keyed CampaignBudget.campaignId ↔
      budget.campaignId = campaignId ∨ t campaignId = none := by
  rw [Table.replace_eq_rekey, Table.keyed_rekey_iff keyed]
  simp

/-- A charge leaves the id of its record. -/
theorem charged_campaignId {charge : UInt32 × UInt64} {budget : CampaignBudget}
    (keyed : t.Keyed CampaignBudget.campaignId) (found : charged t charge = some budget) :
    budget.campaignId = charge.1 := by
  obtain ⟨old, there, rfl⟩ := Option.map_eq_some_iff.mp found
  exact keyed charge.1 old there

theorem keyed_noticed (keyed : t.Keyed CampaignBudget.campaignId) (notice : WinNotice) :
    (noticed t notice).Keyed CampaignBudget.campaignId := by
  unfold noticed
  cases notice.charge with
  | none => exact keyed
  | some charge =>
      cases found : charged t charge with
      | none => simpa only [found] using keyed
      | some budget =>
          simp only [found]
          exact (keyed_replace_iff keyed charge.1 budget).mpr
            (.inl (charged_campaignId keyed found))

/-- What is broadcast of a notice goes by the campaign that was noticed. -/
theorem broadcast_campaignId {notice : WinNotice} {budget : CampaignBudget}
    (keyed : t.Keyed CampaignBudget.campaignId) (sent : broadcast t notice = some budget) :
    notice.campaignId = some budget.campaignId := by
  obtain ⟨charge, here, found⟩ := Option.bind_eq_some_iff.mp sent
  rw [charged_campaignId keyed found]
  unfold WinNotice.charge at here
  split at here
  · rename_i campaignId price id _
    cases here
    exact id
  · cases here

theorem keyed_loaded (keyed : t.Keyed CampaignBudget.campaignId) (budgets : List CampaignBudget) :
    (budgets.foldl (fun t budget => t.add budget.campaignId budget) t).Keyed
      CampaignBudget.campaignId := by
  induction budgets generalizing t with
  | nil => exact keyed
  | cons budget budgets ih => exact ih ((Table.keyed_add_iff keyed _ _).mpr (.inl rfl))

theorem keyed_effect_iff (holds : c.Holds t) (keyed : t.Keyed CampaignBudget.campaignId)
    (command : Command) :
    (effect t command).Keyed CampaignBudget.campaignId ↔ KeepsIds c command := by
  have missing (campaignId : UInt32) : ¬ c.container.hasKey campaignId ↔ t campaignId = none := by
    rw [hasKey_iff holds, Option.not_isSome_iff_eq_none]
  cases command with
  | put m fails =>
      simp only [effect, KeepsIds]
      cases m.stored with
      | none => exact iff_of_true keyed (by simp)
      | some p => simp [Table.keyed_add_iff keyed, hasKey_iff holds]
  | post m =>
      simp only [effect, KeepsIds]
      cases m.stored with
      | none => exact iff_of_true keyed (by simp)
      | some p => simp [keyed_replace_iff keyed, missing]
  | delete m =>
      refine iff_of_true ?_ trivial
      rw [effect]
      cases m.handled with
      | none => exact keyed
      | some campaignId => exact Table.keyed_drop keyed campaignId
  | winNotice notice => exact iff_of_true (keyed_noticed keyed notice) trivial
  | load file fails =>
      refine iff_of_true ?_ trivial
      cases file with
      | none => exact keyed
      | some budgets => exact keyed_loaded Table.keyed_empty budgets
  | update budget oldCampaignId newCampaignId =>
      rw [effect, KeepsIds, Table.keyed_rekey_iff keyed, missing, hasKey_iff holds]
  | consume budget =>
      exact iff_of_true ((keyed_replace_iff keyed _ budget).mpr (.inl rfl)) trivial

/-- Records stay under their own ids exactly if they start there and every command keeps them. -/
theorem own_ids_iff
    (container : MultiIndex (Entity.key : Entity UInt32 CampaignBudget → UInt32) campaignPart)
    (commands : List Command) :
    (∀ before after c, commands = before ++ after →
        Transition.exec BudgetCache.step (budgetCache container) before = some c → OwnIds c) ↔
      OwnIds (budgetCache container) ∧
        Transition.Along BudgetCache.step KeepsIds (budgetCache container) commands := by
  rw [← Transition.always_iff_reached]
  apply Transition.always_iff_along fun c => ∃ t, c.Holds t
  · rintro c command ⟨t, holds⟩
    obtain ⟨d, next, after⟩ := step_holds holds command
    refine ⟨d, next, ⟨_, after⟩, ?_⟩
    intro own
    rw [ownIds_iff after, keyed_effect_iff holds ((ownIds_iff holds).mp own)]
  · exact ⟨_, budgetCache_holds container⟩

/-- A body for campaign 2 under the URL of campaign 1. -/
def mismatched : CampaignMatch where
  command := ascii "budget/id/"
  digits := ascii "1"
  data := some (.object [(ascii "id", .integer 2)])

/-- The body is stored under the id of the URL. -/
theorem mismatched_stored : ¬ ∀ before after c, [.put mismatched false] = before ++ after →
    Transition.exec BudgetCache.step (budgetCache MultiIndex.empty) before = some c →
      OwnIds c := by
  intro own
  have start : (budgetCache MultiIndex.empty).Holds Table.empty := budgetCache_holds _
  obtain ⟨d, next, after⟩ := step_holds start (.put mismatched false)
  have found : effect Table.empty (.put mismatched false) 1 = some { campaignId := 2 } := rfl
  have kept := own [.put mismatched false] [] d (List.append_nil _).symm
    (Transition.exec_cons.mpr ⟨d, next, rfl⟩)
  exact absurd ((ownIds_iff after).mp kept 1 _ found) (by decide)

end OwnIds

end VanillaRtb.Campaign
