import VanillaRtb.Campaign.Notification
import VanillaRtb.Messaging.Serialization

/-! # Budgets of a slave banker

The notification service broadcasts every record that it charges, and a slave banker writes
what it receives under the id that the record tells. Datagrams carry no number, so the one
that comes in last is the one that stays, and they carry no overdraft.
-/

namespace VanillaRtb.Campaign

open Lib Datacache Messaging

/-- An archive of unsigned integers too, as lossless as the others. -/
structure BudgetArchive (B : Type) extends BinaryArchive B where
  uint32 : Wire B UInt32
  uint64 : Wire B UInt64
  uint32_lossless : uint32.Lossless
  uint64_lossless : uint64.Lossless

def MetricType.code : MetricType → Int32
  | .undefined => 0
  | .cpm => 1
  | .cpc => 2
  | .cpa => 3

def MetricType.ofCode (n : Int32) : MetricType :=
  if n = 1 then .cpm else if n = 2 then .cpc else if n = 3 then .cpa else .undefined

theorem MetricType.ofCode_code (type : MetricType) : ofCode type.code = type := by
  cases type <;> rfl

section Archive

variable {B : Type} (ar : BudgetArchive B)

def BudgetArchive.metricType : Wire B MetricType :=
  ar.int.coded MetricType.code MetricType.ofCode

/-- `serialize(Archive &, CampaignBudget::Metric &)`. -/
def CampaignBudget.Metric.serialize : Layout B CampaignBudget.Metric :=
  Layout.nil
    |>.field ar.metricType Metric.type (fun v m => { m with type := v })
    |>.field ar.uint64 Metric.value (fun v m => { m with value := v })

/-- `serialize(Archive &, CampaignBudget &)`. -/
def CampaignBudget.serialize : Layout B CampaignBudget :=
  Layout.nil
    |>.field ar.uint32 campaignId (fun v b => { b with campaignId := v })
    |>.field ar.uint64 dayBudgetLimit (fun v b => { b with dayBudgetLimit := v })
    |>.field ar.uint64 dayBudgetSpent (fun v b => { b with dayBudgetSpent := v })
    |>.field ((Metric.serialize ar).toWire {}) metric (fun v b => { b with metric := v })

/-- What is left of a record on the far side. -/
def CampaignBudget.received (b : CampaignBudget) : CampaignBudget :=
  { b with dayBudgetOverdraft := 0 }

theorem CampaignBudget.serialize_copy (b : CampaignBudget) :
    (CampaignBudget.serialize ar).copy b {} = b.received := by
  have type : ar.metricType.image b.metric.type = b.metric.type :=
    Wire.coded_lossless ar.int_lossless MetricType.ofCode_code _
  simp only [CampaignBudget.serialize, Metric.serialize, Layout.field_copy, Layout.nil_copy,
    Layout.toWire_image, type, ar.uint32_lossless b.campaignId, ar.uint64_lossless b.dayBudgetLimit,
    ar.uint64_lossless b.dayBudgetSpent, ar.uint64_lossless b.metric.value]
  rfl

/-- `distribute` of a record. -/
def datagram (b : CampaignBudget) : List B :=
  Messaging.serialize ar.toBinaryArchive (CampaignBudget.serialize ar) b

namespace SlaveBanker

/-- What is done with one datagram; nothing where the archive throws. -/
def consume (c : BudgetCache) (wire : List B) : Option BudgetCache := do
  let budget ← deserialize ar.toBinaryArchive (CampaignBudget.serialize ar) {} wire
  (c.updateSame budget budget.campaignId).toOption.map Prod.fst

/-- `run`, over the datagrams in the order they come in. -/
def run (c : BudgetCache) (wires : List (List B)) : Option BudgetCache :=
  wires.foldlM (consume ar) c

end SlaveBanker

/-- The datagrams of what was sent, in an order of the notices that sent them. -/
def arrivals (sent : List (Option CampaignBudget)) (order : List Nat) : List (List B) :=
  (order.filterMap fun i => (sent[i]?).join).map (datagram ar)

end Archive

/-- Two records agree in everything but their ids. -/
structure SameFigures (x y : CampaignBudget) : Prop where
  limit : x.dayBudgetLimit = y.dayBudgetLimit
  spent : x.dayBudgetSpent = y.dayBudgetSpent
  overdraft : x.dayBudgetOverdraft = y.dayBudgetOverdraft
  metric : x.metric = y.metric

/-- Campaigns that both caches know have the same figures in both. -/
def Replicated (master slave : BudgetCache) : Prop :=
  ∀ campaignId x y, master.table campaignId = some x → slave.table campaignId = some y →
    SameFigures x y

/-- The notices handled by the master and the datagrams by the slave, each in its order. -/
def Replicates {B : Type} (ar : BudgetArchive B)
    (master slave : MultiIndex (Entity.key : Entity UInt32 CampaignBudget → UInt32) campaignPart)
    (notices : List WinNotice) (order : List Nat) : Prop :=
  ∃ s sent c, NotificationService.winNotices { cache := budgetCache master } notices =
      .ok (s, sent) ∧
    SlaveBanker.run ar (budgetCache slave) (arrivals ar sent order) = some c ∧
      Replicated s.cache c

section LastWord

variable (t : Table UInt32 CampaignBudget) (notices : List WinNotice)

/-- The record that the `i`-th notice charges, as it was before all notices, and all that was
    charged to it up to this one. -/
def chargeAt (i : Nat) : Option (CampaignBudget × Nat) := do
  let notice ← notices[i]?
  let charge ← notice.charge
  let b ← t charge.1
  pure (b, total (pricesOf charge.1 (notices.take (i + 1))))

/-- The same of the last notice to come in whose record tells the id. -/
def lastWord (order : List Nat) (campaignId : UInt32) : Option (CampaignBudget × Nat) :=
  ((order.filterMap (chargeAt t notices)).filter fun word => word.1.campaignId = campaignId).getLast?

/-- All that the notices charge to `b`, the record of the master, is in the last word on the
    campaign, or in the record of the slave where there is none. -/
def InStep (order : List Nat) (campaignId : UInt32) (b r : CampaignBudget) : Prop :=
  let charged := b.charge (total (pricesOf campaignId notices))
  match lastWord t notices order campaignId with
  | none => SameFigures charged r
  | some (b', charges) => SameFigures charged (b'.charge charges).received

end LastWord

section Broadcasts

variable {t : Table UInt32 CampaignBudget} {c : BudgetCache} {B : Type} (ar : BudgetArchive B)

theorem total_append (ps qs : List UInt64) : total (ps ++ qs) = total ps + total qs := by
  rw [total, List.map_append, List.sum_append, total, total]

theorem chargeAt_succ (t : Table UInt32 CampaignBudget) (first : WinNotice)
    (notices : List WinNotice) (i : Nat) :
    (chargeAt (noticed t first) notices i).map (fun word => word.1.charge word.2) =
      (chargeAt t (first :: notices) (i + 1)).map fun word => word.1.charge word.2 := by
  unfold chargeAt
  rw [List.getElem?_cons_succ]
  cases notices[i]? with
  | none => rfl
  | some notice =>
      simp only [Option.bind_eq_bind, Option.bind_some]
      cases notice.charge with
      | none => rfl
      | some charge =>
          simp only [Option.bind_some, noticed_at, List.take_succ_cons, pricesOf_cons, total_append]
          cases t charge.1 with
          | none => rfl
          | some b =>
              change some ((b.wins (first.priceFor charge.1).toList).charge _) = some (b.charge _)
              rw [CampaignBudget.wins_eq_charge, CampaignBudget.charge_charge]

/-- What the `i`-th notice broadcasts. -/
theorem broadcasts_at (t : Table UInt32 CampaignBudget) (notices : List WinNotice) (i : Nat) :
    ((broadcasts t notices)[i]?).join =
      (chargeAt t notices i).map fun word => word.1.charge word.2 := by
  induction notices generalizing t i with
  | nil => rfl
  | cons notice notices ih =>
      cases i with
      | succ i =>
          rw [← chargeAt_succ, ← ih]
          rfl
      | zero =>
          unfold chargeAt
          simp only [broadcasts, List.getElem?_cons_zero, Option.join_some, broadcast,
            Option.bind_eq_bind, Option.bind_some, List.take_succ_cons, List.take_zero]
          cases noticedAs : notice.charge with
          | none => rfl
          | some charge =>
              have price : total (pricesOf charge.1 [notice]) = charge.2.toNat := by
                simp [pricesOf, WinNotice.priceFor, noticedAs, total]
              simp only [Option.bind_some, charged, price]
              cases t charge.1 with
              | none => rfl
              | some b => exact congrArg some (b.updatePrice_eq_charge charge.2)

/-- A slave does not fail on what the master sends. -/
theorem run_holds (holds : c.Holds t) (records : List CampaignBudget) :
    ∃ d, SlaveBanker.run ar c (records.map (datagram ar)) = some d ∧
      d.Holds (records.foldl (fun t b => t.replace b.campaignId b.received) t) := by
  induction records generalizing c t with
  | nil => exact ⟨c, rfl, holds⟩
  | cons b records ih =>
      obtain ⟨next, success, first, after⟩ :=
        CampaignCache.updateSame_holds holds b.received b.campaignId
      obtain ⟨last, rest, final⟩ := ih after
      refine ⟨last, ?_, final⟩
      have read : deserialize ar.toBinaryArchive (CampaignBudget.serialize ar) {} (datagram ar b) =
          some b.received := by
        rw [datagram, deserialize_serialize, CampaignBudget.serialize_copy]
      have here : SlaveBanker.consume ar c (datagram ar b) = some next := by
        rw [SlaveBanker.consume, read]
        change (c.updateSame b.received b.campaignId).toOption.map Prod.fst = _
        rw [first]
        rfl
      rw [List.map_cons, SlaveBanker.run, List.foldlM_cons, here]
      exact rest

/-- The last record about a campaign is the one that stays. -/
theorem replay_at (t : Table UInt32 CampaignBudget) (records : List CampaignBudget)
    (campaignId : UInt32) :
    records.foldl (fun t b => t.replace b.campaignId b.received) t campaignId =
      (t campaignId).map fun r =>
        ((records.filter fun b => b.campaignId = campaignId).getLast?.map
          CampaignBudget.received).getD r := by
  induction records using List.reverseRecOn with
  | nil => exact Option.map_id_apply.symm
  | append_singleton records b ih =>
      rw [List.foldl_append, List.foldl_cons, List.foldl_nil, Table.replace_at, List.filter_append]
      by_cases same : b.campaignId = campaignId
      · have one : [b].filter (fun b => b.campaignId = campaignId) = [b] :=
          List.filter_cons_of_pos (by simpa using same)
        rw [if_pos same.symm, same, ih, one, List.getLast?_append, Option.map_map]
        rfl
      · have none : [b].filter (fun b => b.campaignId = campaignId) = [] :=
          List.filter_cons_of_neg (by simpa using same)
        rw [if_neg (Ne.symm same), ih, none, List.append_nil]

/-- The last record about a campaign is made from the last word on it. -/
theorem lastWord_received (t : Table UInt32 CampaignBudget) (notices : List WinNotice)
    (order : List Nat) (campaignId : UInt32) :
    ((order.filterMap fun i => ((broadcasts t notices)[i]?).join).filter
        fun b => b.campaignId = campaignId).getLast? =
      (lastWord t notices order campaignId).map fun word => word.1.charge word.2 := by
  have sent : (order.filterMap fun i => ((broadcasts t notices)[i]?).join) =
      (order.filterMap (chargeAt t notices)).map fun word => word.1.charge word.2 := by
    rw [List.map_filterMap]
    simp only [broadcasts_at]
  rw [sent, List.filter_map, List.getLast?_map, lastWord]
  rfl

end Broadcasts

/-- What the records are in the end. -/
theorem replicates_ends {B : Type} (ar : BudgetArchive B)
    (master slave : MultiIndex (Entity.key : Entity UInt32 CampaignBudget → UInt32) campaignPart)
    (notices : List WinNotice) (order : List Nat) :
    ∃ left right : BudgetCache,
      (Replicates ar master slave notices order ↔ Replicated left right) ∧
      left.Holds (notices.foldl noticed (lookup master.entries)) ∧
      right.Holds ((order.filterMap fun i =>
        ((broadcasts (lookup master.entries) notices)[i]?).join).foldl
          (fun t b => t.replace b.campaignId b.received) (lookup slave.entries)) := by
  obtain ⟨s, handled, left⟩ :=
    winNotices_holds (s := { cache := budgetCache master }) (budgetCache_holds master) notices
  obtain ⟨c, consumed, right⟩ := run_holds ar (budgetCache_holds slave)
    (order.filterMap fun i => ((broadcasts (lookup master.entries) notices)[i]?).join)
  refine ⟨s.cache, c, ?_, left, right⟩
  constructor
  · rintro ⟨s', sent, c', handled', consumed', replicated⟩
    rw [handled] at handled'
    cases handled'
    obtain rfl := Option.some.inj (consumed.symm.trans consumed')
    exact replicated
  · intro replicated
    exact ⟨s, _, c, handled, consumed, replicated⟩

/-- Replication is complete exactly if every campaign is in step: the last word on it has all
    that was charged to it, and nothing is overdrawn. -/
theorem replicates_iff {B : Type} (ar : BudgetArchive B)
    (master slave : MultiIndex (Entity.key : Entity UInt32 CampaignBudget → UInt32) campaignPart)
    (notices : List WinNotice) (order : List Nat) :
    Replicates ar master slave notices order ↔
      ∀ campaignId b r, lookup master.entries campaignId = some b →
        lookup slave.entries campaignId = some r →
          InStep (lookup master.entries) notices order campaignId b r := by
  obtain ⟨left, right, outcome, charged, replayed⟩ :=
    replicates_ends ar master slave notices order
  rw [outcome, Replicated, charged.contents, replayed.contents]
  refine forall_congr' ?_
  intro campaignId
  rw [noticed_all_at, replay_at, lastWord_received]
  cases lookup master.entries campaignId with
  | none => simp
  | some b =>
      cases lookup slave.entries campaignId with
      | none => simp
      | some r =>
          simp only [Option.map_some, Option.some.injEq, CampaignBudget.wins_eq_charge, InStep]
          constructor
          · rintro same b' r' rfl rfl
            have figures := same _ _ rfl rfl
            generalize lastWord (lookup master.entries) notices order campaignId = word at figures ⊢
            cases word <;> exact figures
          · rintro same x y rfl rfl
            have figures := same b r rfl rfl
            generalize lastWord (lookup master.entries) notices order campaignId = word at figures ⊢
            cases word <;> exact figures

/-- Campaign 1 with a budget of ten. -/
def budgetOfTen :
    MultiIndex (Entity.key : Entity UInt32 CampaignBudget → UInt32) campaignPart :=
  (MultiIndex.empty.insert { key := 1, data := { campaignId := 1, dayBudgetLimit := 10 } }).1

section Tokens

/-- The primitives of an archive kept apart, in place of their bytes. -/
inductive BudgetToken where
  | int (n : Int32)
  | uint32 (n : UInt32)
  | uint64 (n : UInt64)
  | string (s : StdString)
  | size (n : Nat)

private def budgetTokenWire (token : α → BudgetToken) (value : BudgetToken → Option α)
    (value_token : ∀ a, value (token a) = some a) : Wire BudgetToken α where
  put a := [token a]
  get
    | t :: rest => (value t).map (·, rest)
    | [] => none
  image a := a
  get_put a rest := by simp only [List.singleton_append, value_token, Option.map_some]

private def budgetTokenCount : Wire BudgetToken Nat :=
  budgetTokenWire .size (fun | .size n => some n | _ => none) fun _ => rfl

/-- An archive that meets its documentation. -/
def budgetTokens : BudgetArchive BudgetToken where
  header := { put := fun _ => [], get := fun bs => some ((), bs), image := id,
              get_put := fun _ _ => rfl }
  int := budgetTokenWire .int (fun | .int n => some n | _ => none) fun _ => rfl
  uint32 := budgetTokenWire .uint32 (fun | .uint32 n => some n | _ => none) fun _ => rfl
  uint64 := budgetTokenWire .uint64 (fun | .uint64 n => some n | _ => none) fun _ => rfl
  string := budgetTokenWire .string (fun | .string s => some s | _ => none) fun _ => rfl
  vector w := Wire.vector budgetTokenCount (fun _ => rfl) w
  int_lossless _ := rfl
  uint32_lossless _ := rfl
  uint64_lossless _ := rfl
  string_lossless _ := rfl
  vector_image _ _ := rfl

end Tokens

/-- The datagram of the first win comes in after that of the second, which it undoes. -/
theorem overtaken_datagram : ¬ Replicates budgetTokens budgetOfTen budgetOfTen
    [⟨some 1, some 1⟩, ⟨some 2, some 1⟩] [1, 0] := by
  obtain ⟨left, right, outcome, charged, replayed⟩ :=
    replicates_ends budgetTokens budgetOfTen budgetOfTen [⟨some 1, some 1⟩, ⟨some 2, some 1⟩] [1, 0]
  rw [outcome]
  intro replicated
  have here : left.table 1 = some ⟨1, 7, 3, 0, {}⟩ := charged.contents ▸ rfl
  have there : right.table 1 = some ⟨1, 9, 1, 0, {}⟩ := replayed.contents ▸ rfl
  exact absurd (replicated 1 _ _ here there).limit (by decide)

section OwnIds

variable {t : Table UInt32 CampaignBudget} {notices : List WinNotice} {order : List Nat}
  {campaignId : UInt32} {b r : CampaignBudget}

/-- A record agrees with what a slave makes of an earlier state of it exactly if nothing was
    taken from the limit since, and nothing is overdrawn. -/
theorem sameFigures_received_iff (b : CampaignBudget) (m n : Nat) :
    SameFigures (b.charge m) (b.charge n).received ↔
      min b.dayBudgetLimit.toNat m = min b.dayBudgetLimit.toNat n ∧
        (b.charge m).dayBudgetOverdraft = 0 := by
  have left (k : Nat) : (UInt64.ofNat (b.dayBudgetLimit.toNat - k)).toNat =
      b.dayBudgetLimit.toNat - k :=
    UInt64.toNat_ofNat_of_lt' (lt_of_le_of_lt (Nat.sub_le _ _) b.dayBudgetLimit.toNat_lt)
  constructor
  · intro same
    refine ⟨?_, same.overdraft⟩
    have limit := congrArg UInt64.toNat same.limit
    simp only [CampaignBudget.charge, CampaignBudget.received, left] at limit
    omega
  · rintro ⟨taken, none⟩
    refine ⟨?_, ?_, none, rfl⟩
    · apply UInt64.toNat_inj.mp
      simp only [CampaignBudget.charge, CampaignBudget.received, left]
      omega
    · simp only [CampaignBudget.charge, CampaignBudget.received, taken]

/-- Where the master keeps records under their own ids, the last word on a campaign is about its
    own record. -/
theorem inStep_own_iff (keyed : t.Keyed CampaignBudget.campaignId) (here : t campaignId = some b)
    (word : lastWord t notices order campaignId = some (b', charges)) :
    InStep t notices order campaignId b r ↔
      min b.dayBudgetLimit.toNat (total (pricesOf campaignId notices)) =
          min b.dayBudgetLimit.toNat charges ∧
        (b.charge (total (pricesOf campaignId notices))).dayBudgetOverdraft = 0 := by
  have inside := List.mem_of_getLast? word
  obtain ⟨spoken, named⟩ := List.mem_filter.mp inside
  obtain ⟨i, -, found⟩ := List.mem_filterMap.mp spoken
  have own : b' = b := by
    unfold chargeAt at found
    simp only [Option.bind_eq_bind, Option.bind_eq_some_iff] at found
    obtain ⟨notice, -, charge, -, b'', there, same⟩ := found
    cases same
    have id : charge.1 = campaignId :=
      (keyed charge.1 b' there).symm.trans (of_decide_eq_true named)
    rw [id, here] at there
    exact (Option.some.inj there).symm
  simp only [InStep, word, own]
  exact sameFigures_received_iff b _ _

end OwnIds

end VanillaRtb.Campaign
