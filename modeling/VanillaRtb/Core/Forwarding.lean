import VanillaRtb.Core.Bidder

/-! # What the impressions find in the tuple

The head key and the matchers of a call are objects in a tuple that is forwarded as an rvalue
for every impression again. The matchers are constructed from it by move, and the key is handed
through to the first of them, which moves from it where it takes it by value. What a move leaves
is the next impression's.
-/

namespace VanillaRtb.Core

open OpenRtb Matchers

/-- The type of a matcher: what a call of a closure yields, nothing where it throws, and what it
    leaves of an argument that it may move from. `moved` is what a move leaves of a closure. -/
structure Callable (Req Imp A B : Type) where
  Closure : Type
  call : Closure → A → Req → Imp → Option B
  left : Closure → A → Req → Imp → A
  moved : Closure → Closure

/-- `std::function`, which is empty after a move and throws then. `left` is what a move leaves
    of its argument. -/
def Callable.stdFunction (left : A → A) : Callable Req Imp A B where
  Closure := Option (A → Req → Imp → Option B)
  call closure arg req imp := closure.bind fun f => f arg req imp
  left _ arg _ _ := left arg
  moved _ := none

/-- A matcher without anything to move, which takes its argument by reference. -/
def Callable.reference (f : A → Req → Imp → Option B) : Callable Req Imp A B where
  Closure := Unit
  call _ := f
  left _ arg _ _ := arg
  moved closure := closure

/-- The matchers of a tuple. -/
inductive Closures (Req Imp : Type) : Type → Type 1 where
  | terminal (F : Callable Req Imp A (List Ad)) (f : F.Closure) : Closures Req Imp A
  | link (truthy : B → Bool) (F : Callable Req Imp A B) (f : F.Closure)
      (tail : Closures Req Imp B) : Closures Req Imp A

namespace Closures

variable {Req Imp : Type}

def chain : {A : Type} → Closures Req Imp A → Chain Req Imp A
  | _, .terminal F f => .terminal (F.call f)
  | _, .link truthy F f tail => .link truthy (F.call f) tail.chain

def moved : {A : Type} → Closures Req Imp A → Closures Req Imp A
  | _, .terminal F f => .terminal F (F.moved f)
  | _, .link truthy F f tail => .link truthy F (F.moved f) tail.moved

/-- What the first matcher leaves of the head key. -/
def left (arg : A) (req : Req) (imp : Imp) : Closures Req Imp A → A
  | .terminal F f => F.left f arg req imp
  | .link _ F f _ => F.left f arg req imp

end Closures

/-- The head key and the matchers, as the tuple holds them. -/
structure Arguments (A : Type) where
  key : A
  matchers : Closures (BidRequest StdString) (Impression StdString) A

namespace Arguments

def tuple (args : Arguments A) : Tuple A := (args.key, args.matchers.chain)

/-- What is in the tuple after `buildImpResponse`. -/
def leave (request : BidRequest StdString) (imp : Impression StdString) (args : Arguments A) :
    Arguments A where
  key := args.matchers.left args.key request imp
  matchers := args.matchers.moved

/-- The impressions with what each finds in the tuple. -/
def found (request : BidRequest StdString) :
    List (Impression StdString) → Arguments A → List (Impression StdString × Arguments A)
  | [], _ => []
  | imp :: rest, args => (imp, args) :: found request rest (args.leave request imp)

end Arguments

namespace Bidder

/-- The loop of `bid`. -/
def forwardEach (uuids : Nat → StdString) (request : BidRequest StdString) :
    Bidder → List (Impression StdString) → Arguments A → Option Bidder
  | b, [], _ => some b
  | b, imp :: rest, args =>
      (b.buildImpResponse uuids request imp args.tuple).bind fun b =>
        forwardEach uuids request b rest (args.leave request imp)

/-- `bid`, which constructs the tuple. -/
def forward (uuids : Nat → StdString) (b : Bidder) (request : BidRequest StdString)
    (args : Arguments A) : Option Bidder :=
  forwardEach uuids request { b with response := b.response.clear } request.imp args

/-- A tuple whose matchers each leave the same for all impressions is the one of `bidEach`. -/
theorem forwardEach_eq_bidEach (uuids : Nat → StdString) (leaves : Tuple A → Tuple A)
    (request : BidRequest StdString)
    (left : ∀ imp (args : Arguments A), (args.leave request imp).tuple = leaves args.tuple)
    (b : Bidder) (imps : List (Impression StdString)) (args : Arguments A) :
    forwardEach uuids request b imps args = bidEach uuids leaves request b imps args.tuple := by
  induction imps generalizing b args with
  | nil => rfl
  | cons imp rest ih =>
      rw [forwardEach, bidEach]
      congr 1
      funext b'
      rw [ih, left]

/-- The request reduced to one impression. -/
def alone (request : BidRequest StdString) (imp : Impression StdString) : BidRequest StdString :=
  { request with imp := [imp] }

/-- A bid apart from its identifier. -/
def anonymous (bid : Bid StdString) : Bid StdString := { bid with id := [] }

def anonymousBids (b : Bidder) : List (Bid StdString) := b.response.bids.map anonymous

/-- The bid for an impression, if an ad is selected. -/
def offers (s : AdSelector) (request : BidRequest StdString) (imp : Impression StdString)
    (args : Arguments A) : Option (List (Bid StdString)) :=
  (s.select request imp args.key args.matchers.chain).map fun selected =>
    selected.toList.map fun ad => offer imp ad []

/-- All bids one after the other, where none of them throws. -/
def joined : List (Option (List T)) → Option (List T)
  | [] => some []
  | none :: _ => none
  | some xs :: rest => (joined rest).map fun ys => xs ++ ys

theorem anonymousBids_answer (uuids : Nat → StdString) (b : Bidder)
    (request : BidRequest StdString) (imp : Impression StdString) (ad : Ad) (drawn : Nat) :
    anonymousBids { b with
        response := answer uuids b.drawn b.response request imp ad
        drawn } = anonymousBids b ++ [offer imp ad []] := by
  simp only [anonymousBids, bids_answer, List.map_append]
  rfl

/-- What a turn does to the bids. -/
theorem buildImpResponse_bids (uuids : Nat → StdString) (b : Bidder)
    (request : BidRequest StdString) (imp : Impression StdString) (args : Arguments A) :
    match offers b.selector request imp args with
    | none => b.buildImpResponse uuids request imp args.tuple = none
    | some bids => ∃ b', b.buildImpResponse uuids request imp args.tuple = some b' ∧
        b'.selector = b.selector ∧ anonymousBids b' = anonymousBids b ++ bids := by
  simp only [offers, buildImpResponse, Arguments.tuple]
  cases b.selector.select request imp args.key args.matchers.chain with
  | none => rfl
  | some selected =>
      cases selected with
      | none => exact ⟨b, rfl, rfl, (List.append_nil _).symm⟩
      | some ad => exact ⟨_, rfl, rfl, anonymousBids_answer uuids b request imp ad _⟩

theorem forwardEach_bids (uuids : Nat → StdString) (request : BidRequest StdString) (b : Bidder)
    (imps : List (Impression StdString)) (args : Arguments A) :
    (forwardEach uuids request b imps args).map anonymousBids =
      (joined ((Arguments.found request imps args).map fun p =>
        offers b.selector request p.1 p.2)).map fun bids => anonymousBids b ++ bids := by
  induction imps generalizing b args with
  | nil => simp only [forwardEach, Arguments.found, List.map_nil, joined, Option.map_some,
      List.append_nil]
  | cons imp rest ih =>
      have turn := buildImpResponse_bids uuids b request imp args
      simp only [forwardEach, Arguments.found, List.map_cons]
      cases offered : offers b.selector request imp args with
      | none =>
          rw [offered] at turn
          rw [turn]
          rfl
      | some bids =>
          rw [offered] at turn
          obtain ⟨b', taken, selector, added⟩ := turn
          rw [taken, Option.bind_some, ih, selector, added, joined, Option.map_map]
          congr 1
          funext more
          exact List.append_assoc _ _ _

theorem forward_bids (uuids : Nat → StdString) (b : Bidder) (request : BidRequest StdString)
    (args : Arguments A) :
    (forward uuids b request args).map anonymousBids =
      joined ((Arguments.found request request.imp args).map fun p =>
        offers b.selector request p.1 p.2) := by
  rw [forward, forwardEach_bids]
  exact Option.map_id'

theorem forward_alone_bids (uuids : Nat → StdString) (b : Bidder) (request : BidRequest StdString)
    (imp : Impression StdString) (args : Arguments A) :
    (forward uuids b (alone request imp) args).map anonymousBids =
      offers b.selector (alone request imp) imp args := by
  rw [forward_bids]
  change joined [offers b.selector (alone request imp) imp args] = _
  cases offers b.selector (alone request imp) imp args with
  | none => rfl
  | some bids => exact congrArg some (List.append_nil bids)

/-- The bids are, one after the other, those of the request reduced to each of its impressions,
    every time with the key and the matchers as they were given. -/
def Splits (uuids : Nat → StdString) (b : Bidder) (request : BidRequest StdString)
    (args : Arguments A) : Prop :=
  (forward uuids b request args).map anonymousBids =
    joined (request.imp.map fun imp =>
      (forward uuids b (alone request imp) args).map anonymousBids)

/-- What each impression finds in the tuple makes of the request the bid that the key and the
    matchers as they were given make of the one reduced to it; or both have a matcher throw. -/
def FoundAlike (s : AdSelector) (request : BidRequest StdString) (args : Arguments A) : Prop :=
  let turns := (Arguments.found request request.imp args).map fun p => offers s request p.1 p.2
  let fresh := request.imp.map fun imp => offers s (alone request imp) imp args
  turns = fresh ∨ none ∈ turns ∧ none ∈ fresh

theorem splits_iff_joined (uuids : Nat → StdString) (b : Bidder)
    (request : BidRequest StdString) (args : Arguments A) :
    Splits uuids b request args ↔
      joined ((Arguments.found request request.imp args).map fun p =>
          offers b.selector request p.1 p.2) =
        joined (request.imp.map fun imp => offers b.selector (alone request imp) imp args) := by
  rw [Splits, forward_bids]
  simp only [forward_alone_bids]

theorem joined_eq_none {l : List (Option (List T))} : joined l = none ↔ none ∈ l := by
  induction l with
  | nil => exact iff_of_false nofun (List.not_mem_nil)
  | cons x rest ih =>
      cases x with
      | none => exact iff_of_true rfl List.mem_cons_self
      | some xs =>
          simp only [joined, Option.map_eq_none_iff, ih, List.mem_cons, reduceCtorEq, false_or]

theorem joined_cons_some {x : Option (List T)} {rest : List (Option (List T))}
    (all : joined (x :: rest) = some zs) :
    ∃ xs ys, x = some xs ∧ joined rest = some ys ∧ zs = xs ++ ys := by
  cases x with
  | none => cases all
  | some xs =>
      obtain ⟨ys, later, rfl⟩ := Option.map_eq_some_iff.mp all
      exact ⟨xs, ys, rfl, later, rfl⟩

/-- Parts of the same lengths are the same parts. -/
theorem joined_inj_of_lengths {l l' : List (Option (List T))}
    (lengths : List.Forall₂
      (fun x y => ∀ xs ys, x = some xs → y = some ys → xs.length = ys.length) l l')
    (all : joined l = some zs) (all' : joined l' = some zs) : l = l' := by
  induction lengths generalizing zs with
  | nil => rfl
  | @cons x y rest rest' same lengths ih =>
      obtain ⟨xs, ys, rfl, later, rfl⟩ := joined_cons_some all
      obtain ⟨xs', ys', rfl, later', split⟩ := joined_cons_some all'
      obtain ⟨rfl, rfl⟩ := List.append_inj split (same xs xs' rfl rfl)
      rw [ih later later']

/-- At most one bid, for the impression with that id. -/
def BidsFor (id : StdString) (x : Option (List (Bid StdString))) : Prop :=
  ∀ bids, x = some bids → bids = [] ∨ ∃ bid, bids = [bid] ∧ bid.impid = id

theorem mem_joined_impid {ids : List StdString} {l : List (Option (List (Bid StdString)))}
    (for_ : List.Forall₂ BidsFor ids l) (all : joined l = some zs) (given : z ∈ zs) :
    z.impid ∈ ids := by
  induction for_ generalizing zs with
  | nil =>
      cases all
      cases given
  | @cons id x ids rest here for_ ih =>
      obtain ⟨xs, ys, rfl, later, rfl⟩ := joined_cons_some all
      rcases List.mem_append.mp given with first | there
      · rcases here xs rfl with rfl | ⟨bid, rfl, impid⟩
        · cases first
        · rw [List.mem_singleton.mp first, impid]
          exact List.mem_cons_self
      · exact List.mem_cons_of_mem _ (ih later there)

/-- Parts of the bids for distinct impressions are the same parts. -/
theorem joined_inj_of_nodup {ids : List StdString} {l l' : List (Option (List (Bid StdString)))}
    (distinct : ids.Nodup) (for_ : List.Forall₂ BidsFor ids l) (for' : List.Forall₂ BidsFor ids l')
    (all : joined l = some zs) (all' : joined l' = some zs) : l = l' := by
  induction for_ generalizing l' zs with
  | nil =>
      cases for'
      rfl
  | @cons id x ids rest here for_ ih =>
      obtain ⟨unused, distinct⟩ := List.nodup_cons.mp distinct
      cases for' with
      | @cons _ y _ rest' here' for' =>
          obtain ⟨xs, ys, rfl, later, rfl⟩ := joined_cons_some all
          obtain ⟨xs', ys', rfl, later', split⟩ := joined_cons_some all'
          -- a bid of one side alone would be among those for the later impressions of the other
          rcases here xs rfl with rfl | ⟨bid, rfl, impid⟩ <;>
            rcases here' xs' rfl with rfl | ⟨bid', rfl, impid'⟩
          · obtain rfl := split
            rw [ih distinct for' later later']
          · have among : bid' ∈ ys := by
              rw [List.nil_append] at split
              exact split ▸ List.mem_cons_self
            exact absurd (impid' ▸ mem_joined_impid for_ later among) unused
          · have among : bid ∈ ys' := by
              rw [List.nil_append] at split
              exact split ▸ List.mem_cons_self
            exact absurd (impid ▸ mem_joined_impid for' later' among) unused
          · obtain ⟨rfl, rfl⟩ := List.cons.inj split
            rw [ih distinct for' later later']

theorem offers_bidsFor (s : AdSelector) (request : BidRequest StdString)
    (imp : Impression StdString) (args : Arguments A) :
    BidsFor imp.id (offers s request imp args) := by
  intro bids offered
  obtain ⟨selected, -, rfl⟩ := Option.map_eq_some_iff.mp offered
  cases selected with
  | none => exact .inl rfl
  | some ad => exact .inr ⟨offer imp ad [], rfl, rfl⟩

/-- Without a selection algorithm of its own a selector always selects an ad. -/
theorem offers_length {s : AdSelector} (default : s.selectionAlgo = none)
    (offered : offers s request imp args = some bids) : bids.length = 1 := by
  obtain ⟨selected, found, rfl⟩ := Option.map_eq_some_iff.mp offered
  obtain ⟨ads, -, rfl⟩ := Option.map_eq_some_iff.mp found
  obtain ⟨ad, best⟩ := Option.isSome_iff_exists.mp (calculateMaxBid_isSome ads)
  simp only [default, best]
  rfl

theorem found_impressions (request : BidRequest StdString) (imps : List (Impression StdString))
    (args : Arguments A) :
    List.Forall₂ (fun imp p => p.1 = imp) imps (Arguments.found request imps args) := by
  induction imps generalizing args with
  | nil => exact .nil
  | cons imp rest ih => exact .cons rfl (ih _)

/-- Bids can be told apart by their impressions, or each impression has one. -/
def ToldApart (s : AdSelector) (request : BidRequest StdString) : Prop :=
  s.selectionAlgo = none ∨ (request.imp.map Impression.id).Nodup

theorem splits_of_foundAlike {uuids : Nat → StdString} {b : Bidder}
    {request : BidRequest StdString} {args : Arguments A}
    (alike : FoundAlike b.selector request args) : Splits uuids b request args := by
  rw [splits_iff_joined]
  rcases alike with same | ⟨threw, threw'⟩
  · exact congrArg joined same
  · rw [joined_eq_none.mpr threw, joined_eq_none.mpr threw']

theorem foundAlike_of_splits {uuids : Nat → StdString} {b : Bidder}
    {request : BidRequest StdString} {args : Arguments A}
    (apart : ToldApart b.selector request) (splits : Splits uuids b request args) :
    FoundAlike b.selector request args := by
  rw [splits_iff_joined] at splits
  cases all : joined (request.imp.map fun imp =>
      offers b.selector (alone request imp) imp args) with
  | none =>
      rw [all] at splits
      exact .inr ⟨joined_eq_none.mp splits, joined_eq_none.mp all⟩
  | some bids =>
      rw [all] at splits
      refine .inl ?_
      rcases apart with default | distinct
      · refine (joined_inj_of_lengths ?_ all splits).symm
        rw [List.forall₂_map_left_iff, List.forall₂_map_right_iff]
        refine (found_impressions request request.imp args).imp ?_
        intro imp p same xs ys single turn
        rw [offers_length default single, offers_length default turn]
      · refine joined_inj_of_nodup distinct ?_ ?_ splits all
        · rw [List.forall₂_map_left_iff, List.forall₂_map_right_iff]
          refine (found_impressions request request.imp args).imp ?_
          rintro imp p rfl
          exact offers_bidsFor b.selector request p.1 p.2
        · rw [List.forall₂_map_left_iff, List.forall₂_map_right_iff, List.forall₂_same]
          exact fun imp _ => offers_bidsFor b.selector (alone request imp) imp args

/-- Matchers that a move leaves as they are, and a key that the first of them does not take by
    value, are found by every impression. -/
theorem found_of_unmoved {request : BidRequest StdString} {args : Arguments A}
    {imps : List (Impression StdString)}
    (unmoved : ∀ imp ∈ imps, args.leave request imp = args) :
    Arguments.found request imps args = imps.map fun imp => (imp, args) := by
  induction imps with
  | nil => rfl
  | cons imp rest ih =>
      rw [Arguments.found, unmoved imp List.mem_cons_self,
        ih fun imp' later => unmoved imp' (List.mem_cons_of_mem imp later)]
      rfl

/-- It is enough that serving an impression leaves the tuple as it was, and that a matcher does
    not look at the other impressions of the request. -/
theorem foundAlike_of_unmoved {s : AdSelector} {request : BidRequest StdString}
    {args : Arguments A} (unmoved : ∀ imp ∈ request.imp, args.leave request imp = args)
    (blind : ∀ imp ∈ request.imp,
      offers s request imp args = offers s (alone request imp) imp args) :
    FoundAlike s request args := by
  refine .inl ?_
  rw [found_of_unmoved unmoved, List.map_map]
  exact List.map_congr_left blind

/-- The bids are those of the single impressions if each finds in the tuple what selects the
    same ad, which is the only way where bids are told apart. -/
theorem splits_iff (uuids : Nat → StdString) (b : Bidder) (request : BidRequest StdString)
    (args : Arguments A) :
    (FoundAlike b.selector request args → Splits uuids b request args) ∧
      (ToldApart b.selector request →
        (Splits uuids b request args ↔ FoundAlike b.selector request args)) :=
  ⟨splits_of_foundAlike,
    fun apart => ⟨foundAlike_of_splits apart, splits_of_foundAlike⟩⟩

/-- The bidder is asked for two impressions, with a function of every kind that returns one ad. -/
def twoImpressions : BidRequest StdString := { imp := [{ id := ascii "1" }, { id := ascii "2" }] }

def oneAd (F : Callable (BidRequest StdString) (Impression StdString) Unit (List Ad))
    (f : F.Closure) : Arguments Unit where
  key := ()
  matchers := .terminal F f

/-- The first impression moves a `std::function` out of the tuple, and the second calls an empty
    one. -/
theorem emptied_function :
    ¬ Splits (fun _ => []) {} twoImpressions
      (oneAd (.stdFunction id) (some fun _ _ _ => some [{ adId := 7 }])) := by
  intro splits
  rw [splits_iff_joined] at splits
  have threw := joined_eq_none.mp splits.symm
  obtain ⟨imp, asked, offered⟩ := List.mem_map.mp threw
  rcases List.mem_pair.mp asked with rfl | rfl
  · cases offered
  · cases offered

/-- A plain function is left as it is. -/
theorem plain_function_splits :
    Splits (fun _ => []) {} twoImpressions
      (oneAd (.reference fun _ _ _ => some [{ adId := 7 }]) ()) :=
  (splits_iff (fun _ => []) {} twoImpressions _).1
    (foundAlike_of_unmoved (fun _ _ => rfl) (fun _ _ => rfl))

end Bidder

end VanillaRtb.Core
