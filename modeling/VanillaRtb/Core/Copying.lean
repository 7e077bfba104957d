import VanillaRtb.Lib.CopyAssignment
import VanillaRtb.OpenRtb

/-! # Copying requests

The copy assignment of `unicode_string` exchanges what the two strings hold. Impressions, requests
and their vectors are assigned member by member, so whether the request that is copied from keeps
its strings depends on which of them meet one on the other side.
-/

namespace VanillaRtb.OpenRtb

open Lib

/-- `operator=(const unicode_string &)` -/
def UnicodeString.assign : Assignment UnicodeString
  | ⟨data⟩, ⟨other⟩ => (⟨other⟩, ⟨data⟩)

section Members

variable {T : Type} [Inhabited T]

/-- The members that are no unicode strings are copied. -/
def Impression.assign : Assignment (Impression T) := fun a b =>
  let displaymanager := a.displaymanager.assign b.displaymanager
  let displaymanagerver := a.displaymanagerver.assign b.displaymanagerver
  let tagid := a.tagid.assign b.tagid
  ({ b with
      displaymanager := displaymanager.1
      displaymanagerver := displaymanagerver.1
      tagid := tagid.1 },
    { b with
      displaymanager := displaymanager.2
      displaymanagerver := displaymanagerver.2
      tagid := tagid.2 })

/-- A request that is assigned to, with how much its two vectors have room for. -/
structure Stored (T : Type) [Inhabited T] where
  request : BidRequest T
  impCapacity : Nat
  badvCapacity : Nat
  imp_fits : request.imp.length ≤ impCapacity
  badv_fits : request.badv.length ≤ badvCapacity

namespace Stored

def imp (a : Stored T) : Vec (Impression T) := ⟨a.request.imp, a.impCapacity, a.imp_fits⟩

def badv (a : Stored T) : Vec UnicodeString := ⟨a.request.badv, a.badvCapacity, a.badv_fits⟩

def assign (a : Stored T) (b : BidRequest T) : Stored T × BidRequest T :=
  let imp := a.imp.copyAssign Impression.assign b.imp
  let badv := a.badv.copyAssign UnicodeString.assign b.badv
  (⟨{ b with imp := imp.1.elems, badv := badv.1.elems }, imp.1.capacity, badv.1.capacity,
      imp.1.fits, badv.1.fits⟩,
    { b with imp := imp.2, badv := badv.2 })

end Stored

/-- `vanilla::BidRequest` -/
structure CarriedRequest (T UserInfo : Type) [Inhabited T] where
  bidRequest : Stored T
  userInfo : UserInfo

/-- `operator=(const request_type &)` -/
def CarriedRequest.assign (a : CarriedRequest T UserInfo) (req : BidRequest T) :
    CarriedRequest T UserInfo × BidRequest T :=
  ({ a with bidRequest := (a.bidRequest.assign req).1 }, (a.bidRequest.assign req).2)

/-- Impressions whose unicode strings are the same. -/
def Impression.SameTexts (a b : Impression T) : Prop :=
  a.displaymanager = b.displaymanager ∧ a.displaymanagerver = b.displaymanagerver ∧
    a.tagid = b.tagid

/-- No unicode string of `b` is assigned onto one that differs from it. -/
def Stored.Undisturbed (a : Stored T) (b : BidRequest T) : Prop :=
  (b.imp.length ≤ a.impCapacity → ∀ p ∈ a.request.imp.zip b.imp, p.1.SameTexts p.2) ∧
    (b.badv.length ≤ a.badvCapacity → ∀ p ∈ a.request.badv.zip b.badv, p.1 = p.2)

theorem UnicodeString.assign_receives : UnicodeString.assign.Receives := by
  intro a b
  rfl

theorem UnicodeString.assign_keeps : UnicodeString.assign.KeepsIff Eq := by
  intro a b
  rfl

theorem Impression.assign_receives : (Impression.assign (T := T)).Receives := by
  intro a b
  rfl

theorem Impression.assign_keeps : (Impression.assign (T := T)).KeepsIff SameTexts := by
  intro a b
  cases b
  simp [assign, SameTexts, UnicodeString.assign]

theorem Stored.assign_request (a : Stored T) (b : BidRequest T) :
    (a.assign b).1.request = b := by
  simp only [assign, Vec.copyAssign_elems Impression.assign_receives,
    Vec.copyAssign_elems UnicodeString.assign_receives]

theorem Stored.assign_source_iff (a : Stored T) (b : BidRequest T) :
    (a.assign b).2 = b ↔ a.Undisturbed b := by
  have imps := Vec.copyAssign_source_iff Impression.assign_keeps a.imp b.imp
  have badvs := Vec.copyAssign_source_iff UnicodeString.assign_keeps a.badv b.badv
  have members : (a.assign b).2 = b ↔
      (a.imp.copyAssign Impression.assign b.imp).2 = b.imp ∧
        (a.badv.copyAssign UnicodeString.assign b.badv).2 = b.badv := by
    cases b
    simp [assign]
  rw [members, imps, badvs]
  rfl

/-- What is assigned to gets the old value, and the source keeps it where no unicode string of
it was assigned onto a different one. -/
theorem assignments_copy_iff (T : Type) [Inhabited T] :
    (∀ a b : UnicodeString, a.assign b = (b, b) ↔ a = b) ∧
      (∀ a b : Impression T, a.assign b = (b, b) ↔ a.SameTexts b) ∧
      (∀ (a : Stored T) (b : BidRequest T),
        (a.assign b).1.request = b ∧ (a.assign b).2 = b ↔ a.Undisturbed b) ∧
      ∀ (UserInfo : Type) (a : CarriedRequest T UserInfo) (b : BidRequest T),
        (a.assign b).1.bidRequest.request = b ∧ (a.assign b).1.userInfo = a.userInfo ∧
          (a.assign b).2 = b ↔ a.bidRequest.Undisturbed b := by
  refine ⟨?_, ?_, ?_, ?_⟩
  · intro a b
    rw [Prod.ext_iff, ← UnicodeString.assign_keeps a b]
    exact and_iff_right (UnicodeString.assign_receives a b)
  · intro a b
    rw [Prod.ext_iff, ← Impression.assign_keeps a b]
    exact and_iff_right (Impression.assign_receives a b)
  · intro a b
    rw [← a.assign_source_iff b]
    exact and_iff_right (a.assign_request b)
  · intro UserInfo a b
    rw [← a.bidRequest.assign_source_iff b]
    constructor
    · rintro ⟨-, -, kept⟩
      exact kept
    · intro kept
      exact ⟨a.bidRequest.assign_request b, rfl, kept⟩

end Members

/-- A request that blocks one advertiser is assigned onto one that blocks another, and blocks
that one afterwards. -/
theorem blocked_advertiser_exchanged :
    ¬ ∀ (a : Stored StdString) (b : BidRequest StdString),
      (a.assign b).1.request = b ∧ (a.assign b).2 = b := by
  intro copies
  have kept := (copies ⟨{ badv := [⟨[120]⟩] }, 0, 1, Nat.le_refl 0, Nat.le_refl 1⟩
    { badv := [⟨[121]⟩] }).2
  have blocked := congrArg BidRequest.badv kept
  exact absurd blocked (by decide)

end VanillaRtb.OpenRtb
