import VanillaRtb.Dsl.Overrun
import VanillaRtb.Lib.Outcome
import VanillaRtb.Parsers.JsmnReach

/-! # The two encoders, token by token

`encode` is written twice, for a `jsonv::value` and for a `boost::any`. One copies the bytes of a
string, the other keeps a view of them; one is asked for the first byte with `at`, the other
whether there is one; one grows its vector, the other reserves the space for it first. Here both
read an array of tokens as C has it, whoever made it.
-/

namespace VanillaRtb.Dsl

open Lib Parsers

/-- `jsmntok_t`, of the type JSMN_UNDEFINED where there is none. -/
structure Jsmntok where
  type : Option JsmnType
  start : Int32
  end_ : Int32
  size : Int32
  deriving DecidableEq

/-- A `string_view` of the text, its size a `size_t`. -/
structure View where
  start : Int
  size : Nat
  deriving DecidableEq

namespace View

/-- The bytes that a view shows. -/
def read (js : StdString) (view : View) : Except Fault StdString :=
  if 0 ≤ view.start ∧ view.start.toNat + view.size ≤ js.length then
    .ok ((js.drop view.start.toNat).take view.size)
  else .error .beyond

/-- A `std::string` of them, which has to be no longer than the largest one. -/
def copy (js : StdString) (view : View) : Except Fault StdString :=
  if 2 ^ 63 ≤ view.size then .error .thrown else view.read js

end View

namespace Jsmntok

/-- `string_view(js + t->start, t->end - t->start)` -/
def view (t : Jsmntok) : View :=
  ⟨t.start.toInt, ((t.end_.toInt - t.start.toInt) % 2 ^ 64).toNat⟩

/-- How often `for (i = 0; i < t->size; ++i)` runs. -/
def rounds (t : Jsmntok) : Nat := t.size.toInt.toNat

/-- A string token lies in the text, and an array token does not have a negative size. -/
def Formed (js : StdString) (t : Jsmntok) : Prop :=
  (t.type = some .string →
      0 ≤ t.start.toInt ∧ t.start.toInt ≤ t.end_.toInt ∧ t.end_.toInt ≤ js.length) ∧
    (t.type = some .array → 0 ≤ t.size.toInt)

instance (js : StdString) (t : Jsmntok) : Decidable (t.Formed js) :=
  inferInstanceAs (Decidable (_ ∧ _))

end Jsmntok

/-- What is in a `boost::any`. A `std::map` keeps its members in the order they were added, as
    objects do. -/
inductive AnyValue where
  | empty
  | double (x : Float)
  | int64 (n : Int64)
  | boolean (b : Bool)
  | stringView (view : View)
  | vector (elements : List AnyValue)
  | map (members : List (View × AnyValue))

namespace Overloads

open Encoders

section Loops

variable {V : Type} (enc : List Jsmntok → UInt64 → V → Except Fault (V × Nat))
  (rest : List Jsmntok) (count : UInt64)

/-- `j += encode(js, t+1+j, count-j, v)`, with the tokens from `t+1` on and `v` newly made. -/
def child (made : V) (j : Nat) : Except Fault (V × Nat) := do
  let (v, d) ← enc (rest.drop j) (count - UInt64.ofNat j) made
  pure (v, j + d)

end Loops

section Jsonv

variable (lexicalDouble : StdString → Option Float) (js : StdString)

section Loops

variable (enc : List Jsmntok → UInt64 → JsonValue → Except Fault (JsonValue × Nat))
  (rest : List Jsmntok) (count : UInt64)

def objectMembers : Nat → Nat → List (StdString × JsonValue) →
    Except Fault (List (StdString × JsonValue) × Nat)
  | 0, j, ms => .ok (ms, j)
  | n + 1, j, ms => do
      let (k, j) ← child enc rest count .null j
      let (v, j) ← child enc rest count .null j
      if isNull k ∨ isNull v then objectMembers n j ms
      else
        match k with
        | .string name => objectMembers n j (insert ms name v)
        | _ => .error .thrown

def arrayElements : Nat → Nat → List JsonValue → Except Fault (List JsonValue × Nat)
  | 0, j, vs => .ok (vs, j)
  | n + 1, j, vs => do
      let (v, j) ← child enc rest count .null j
      arrayElements n j (if isNull v then vs else vs ++ [v])

end Loops

/-- `encode(jsonv::value)` -/
def encodeValue : Nat → List Jsmntok → UInt64 → JsonValue → Except Fault (JsonValue × Nat)
  | 0, _, _, _ => .error .exhausted
  | fuel + 1, ts, count, value =>
      if count = 0 then .ok (value, 0)
      else
        match ts with
        | [] => .error .beyond
        | t :: rest =>
            match t.type with
            | none => .ok (value, 0)
            | some .primitive => do
                let s ← t.view.read js
                let v ← primitive lexicalDouble .jsonv s
                pure (v, 1)
            | some .string => do
                let s ← t.view.copy js
                pure (.string s, 1)
            | some .object => do
                let (ms, j) ← objectMembers (encodeValue fuel) rest count t.rounds 0 []
                pure (.object ms, j + 1)
            | some .array => do
                let (vs, j) ← arrayElements (encodeValue fuel) rest count t.rounds 0 []
                pure (.array vs, j + 1)

end Jsonv

section Any

variable (lexicalDouble : StdString → Option Float) (js : StdString)

def isEmpty : AnyValue → Bool
  | .empty => true
  | _ => false

def anyPrimitive (s : StdString) : Except Fault AnyValue :=
  if s.contains 46 then do
    let x ← cast (lexicalDouble s)
    pure (.double x)
  else if s ≠ [] ∧ s.head? = some 45 then do
    let n ← cast (lexicalCastInt64 s)
    pure (.int64 n)
  else if s ≠ [] ∧ s.head? = some 116 then pure (.boolean true)
  else if s ≠ [] ∧ s.head? = some 102 then pure (.boolean false)
  else do
    let n ← cast (lexicalCastUint64 s)
    pure (.int64 n.toInt64)

/-- `std::map::insert`, which compares what the views show. -/
def insertView (members : List (View × AnyValue)) (key : View) (v : AnyValue) :
    Except Fault (List (View × AnyValue)) :=
  match members with
  | [] => .ok [(key, v)]
  | _ => do
      let name ← key.read js
      let names ← members.mapM fun m => m.1.read js
      pure (if names.contains name then members else members ++ [(key, v)])

/-- `vector::reserve(t->size)`, the size converted to a `size_t`. -/
def reserve (size : Int) : Except Fault Unit := if size < 0 then .error .thrown else .ok ()

section Loops

variable (enc : List Jsmntok → UInt64 → AnyValue → Except Fault (AnyValue × Nat))
  (rest : List Jsmntok) (count : UInt64)

def mapMembers : Nat → Nat → List (View × AnyValue) →
    Except Fault (List (View × AnyValue) × Nat)
  | 0, j, ms => .ok (ms, j)
  | n + 1, j, ms => do
      let (k, j) ← child enc rest count .empty j
      let (v, j) ← child enc rest count .empty j
      if isEmpty k ∨ isEmpty v then mapMembers n j ms
      else
        match k with
        | .stringView key => do
            let ms ← insertView js ms key v
            mapMembers n j ms
        | _ => .error .thrown

def vectorElements : Nat → Nat → List AnyValue → Except Fault (List AnyValue × Nat)
  | 0, j, vs => .ok (vs, j)
  | n + 1, j, vs => do
      let (v, j) ← child enc rest count .empty j
      vectorElements n j (if isEmpty v then vs else vs ++ [v])

end Loops

/-- `encode(boost::any)` -/
def encodeAny : Nat → List Jsmntok → UInt64 → AnyValue → Except Fault (AnyValue × Nat)
  | 0, _, _, _ => .error .exhausted
  | fuel + 1, ts, count, value =>
      if count = 0 then .ok (value, 0)
      else
        match ts with
        | [] => .error .beyond
        | t :: rest =>
            match t.type with
            | none => .ok (value, 0)
            | some .primitive => do
                let s ← t.view.read js
                let v ← anyPrimitive lexicalDouble s
                pure (v, 1)
            | some .string => .ok (.stringView t.view, 1)
            | some .object => do
                let (ms, j) ← mapMembers js (encodeAny fuel) rest count t.rounds 0 []
                pure (.map ms, j + 1)
            | some .array => do
                reserve t.size.toInt
                let (vs, j) ← vectorElements (encodeAny fuel) rest count t.rounds 0 []
                pure (.vector vs, j + 1)

end Any

/-- The same value, where a view stands for what it shows. -/
inductive Corresponds (js : StdString) : JsonValue → AnyValue → Prop where
  | null : Corresponds js .null .empty
  | boolean (b : Bool) : Corresponds js (.boolean b) (.boolean b)
  | integer (n : Int64) : Corresponds js (.integer n) (.int64 n)
  | decimal (x : Float) : Corresponds js (.decimal x) (.double x)
  | string (shown : view.read js = .ok s) : Corresponds js (.string s) (.stringView view)
  | array (each : List.Forall₂ (Corresponds js) vs as) : Corresponds js (.array vs) (.vector as)
  | object
      (named : List.Forall₂ (fun name view => view.read js = .ok name)
        (ms.map Prod.fst) (as.map Prod.fst))
      (each : List.Forall₂ (Corresponds js) (ms.map Prod.snd) (as.map Prod.snd)) :
      Corresponds js (.object ms) (.map as)

/-- Two outcomes with the same fault, or with related results. -/
inductive Alike {A B : Type} (R : A → B → Prop) : Except Fault A → Except Fault B → Prop where
  | faulted : Alike R (.error f) (.error f)
  | returned (related : R a b) : Alike R (.ok a) (.ok b)

/-- What was taken besides is the same. -/
def Counted {A B : Type} (R : A → B → Prop) (x : A × Nat) (y : B × Nat) : Prop :=
  R x.1 y.1 ∧ x.2 = y.2

theorem Alike.same {A : Type} (x : Except Fault A) : Alike Eq x x := by
  cases x with
  | error f => exact .faulted
  | ok a => exact .returned rfl

theorem Alike.bind {A B C D : Type} {R : A → B → Prop} {S : C → D → Prop}
    {x : Except Fault A} {y : Except Fault B} {f : A → Except Fault C} {g : B → Except Fault D}
    (alike : Alike R x y) (next : ∀ a b, R a b → Alike S (f a) (g b)) :
    Alike S (x >>= f) (y >>= g) := by
  cases alike with
  | faulted => exact .faulted
  | returned related => exact next _ _ related

section Agreement

variable {lexicalDouble : StdString → Option Float} {js : StdString}

theorem Corresponds.isNull_iff (same : Corresponds js v a) : isNull v = isEmpty a := by
  cases same <;> rfl

/-- The second overload finds out in the end that there is no first byte. -/
theorem primitive_alike (s : StdString) :
    Alike (Corresponds js) (primitive lexicalDouble .jsonv s) (anyPrimitive lexicalDouble s) := by
  rw [primitive, anyPrimitive]
  by_cases point : s.contains 46 = true
  · rw [if_pos point, if_pos point]
    refine (Alike.same _).bind ?_
    rintro x _ rfl
    exact .returned (.decimal x)
  · rw [if_neg point, if_neg point]
    cases s with
    | nil => exact .faulted
    | cons c cs =>
        simp only [front, ne_eq, reduceCtorEq, not_false_eq_true, List.head?_cons, true_and]
        change Alike _ (if some c = some 45 then _ else _) _
        split
        next minus =>
          refine (Alike.same _).bind ?_
          rintro n _ rfl
          exact .returned (.integer n)
        next =>
          split
          next => exact .returned (.boolean true)
          next =>
            split
            next => exact .returned (.boolean false)
            next =>
              refine (Alike.same _).bind ?_
              rintro n _ rfl
              exact .returned (.integer n.toInt64)

/-- Members under the same names in the same order. -/
def SameMembers (js : StdString) (ms : List (StdString × JsonValue))
    (as : List (View × AnyValue)) : Prop :=
  List.Forall₂ (fun m a => a.1.read js = .ok m.1 ∧ Corresponds js m.2 a.2) ms as

theorem SameMembers.corresponds (same : SameMembers js ms as) :
    Corresponds js (.object ms) (.map as) := by
  refine .object ?_ ?_
  · rw [List.forall₂_map_left_iff, List.forall₂_map_right_iff]
    exact same.imp fun _ _ both => both.1
  · rw [List.forall₂_map_left_iff, List.forall₂_map_right_iff]
    exact same.imp fun _ _ both => both.2

theorem SameMembers.names (same : SameMembers js ms as) :
    (as.mapM fun a => a.1.read js) = .ok (ms.map Prod.fst) := by
  induction same with
  | nil => rfl
  | cons both same ih =>
      rw [List.mapM_cons, both.1, ih]
      rfl

theorem lookup_isSome (name : StdString) (ms : List (StdString × JsonValue)) :
    (JsonValue.lookup name ms).isSome = (ms.map Prod.fst).contains name := by
  rw [JsonValue.lookup, Option.isSome_map, List.isSome_find?, List.contains_eq_any_beq,
    List.any_map]
  congr 1
  funext m
  exact Bool.beq_comm

/-- The first member under a name stays in both. -/
theorem insert_alike (same : SameMembers js ms as) (shown : key.read js = .ok name)
    (values : Corresponds js v a) :
    Alike (SameMembers js) (.ok (Encoders.insert ms name v)) (insertView js as key a) := by
  have added : SameMembers js (ms ++ [(name, v)]) (as ++ [(key, a)]) :=
    List.rel_append same (.cons ⟨shown, values⟩ .nil)
  have kept : insertView js as key a =
      if as.isEmpty then .ok [(key, a)]
      else .ok (if (ms.map Prod.fst).contains name then as else as ++ [(key, a)]) := by
    cases as with
    | nil => rfl
    | cons b as =>
        simp only [insertView, shown, same.names]
        rfl
  rw [kept, Encoders.insert, lookup_isSome]
  cases same with
  | nil => exact .returned added
  | cons both same =>
      rw [List.isEmpty_cons, if_neg Bool.false_ne_true]
      split
      next => exact .returned (List.Forall₂.cons both same)
      next => exact .returned added

section Loops

variable {enc : List Jsmntok → UInt64 → JsonValue → Except Fault (JsonValue × Nat)}
  {enc' : List Jsmntok → UInt64 → AnyValue → Except Fault (AnyValue × Nat)}
  {rest : List Jsmntok}

/-- What the overloads have to do alike with the tokens that a value takes. -/
def EncodersAlike (js : StdString)
    (enc : List Jsmntok → UInt64 → JsonValue → Except Fault (JsonValue × Nat))
    (enc' : List Jsmntok → UInt64 → AnyValue → Except Fault (AnyValue × Nat))
    (ts : List Jsmntok) : Prop :=
  ∀ count v a, Corresponds js v a →
    Alike (Counted (Corresponds js)) (enc ts count v) (enc' ts count a)

variable (alike : ∀ j, EncodersAlike js enc enc' (rest.drop j)) (count : UInt64)
include alike

theorem child_alike (j : Nat) :
    Alike (Counted (Corresponds js)) (child enc rest count .null j)
      (child enc' rest count .empty j) := by
  refine (alike j _ _ _ .null).bind ?_
  rintro ⟨v, d⟩ ⟨a, d'⟩ ⟨values, rfl⟩
  exact .returned ⟨values, rfl⟩

theorem members_alike (n j : Nat) (same : SameMembers js ms as) :
    Alike (Counted (SameMembers js)) (objectMembers enc rest count n j ms)
      (mapMembers js enc' rest count n j as) := by
  induction n generalizing j ms as with
  | zero => exact .returned ⟨same, rfl⟩
  | succ n ih =>
      refine (child_alike alike count j).bind ?_
      rintro ⟨k, i⟩ ⟨k', i'⟩ ⟨keys, rfl⟩
      refine (child_alike alike count i).bind ?_
      rintro ⟨v, l⟩ ⟨a, l'⟩ ⟨values, rfl⟩
      simp only [keys.isNull_iff, values.isNull_iff]
      split
      next => exact ih l same
      next =>
        cases keys with
        | string shown =>
            exact Alike.bind (f := objectMembers enc rest count n l)
              (insert_alike same shown values) fun _ _ same => ih l same
        | _ => exact .faulted

theorem elements_alike (n j : Nat) (same : List.Forall₂ (Corresponds js) vs as) :
    Alike (Counted (List.Forall₂ (Corresponds js))) (arrayElements enc rest count n j vs)
      (vectorElements enc' rest count n j as) := by
  induction n generalizing j vs as with
  | zero => exact .returned ⟨same, rfl⟩
  | succ n ih =>
      refine (child_alike alike count j).bind ?_
      rintro ⟨v, l⟩ ⟨a, l'⟩ ⟨values, rfl⟩
      refine ih l ?_
      rw [values.isNull_iff]
      split
      next => exact same
      next => exact List.rel_append same (.cons values .nil)

end Loops

theorem formed_copy {t : Jsmntok} (formed : t.Formed js) (type : t.type = some .string) :
    ∃ s, t.view.copy js = .ok s ∧ t.view.read js = .ok s := by
  obtain ⟨here, order, inside⟩ := formed.1 type
  have size : t.view.size = t.end_.toInt.toNat - t.start.toInt.toNat := by
    have := t.end_.toInt_lt
    simp only [Jsmntok.view]
    omega
  have small : ¬ 2 ^ 63 ≤ t.view.size := by
    have := t.end_.toInt_lt
    omega
  have within : 0 ≤ t.view.start ∧ t.view.start.toNat + t.view.size ≤ js.length := by
    refine ⟨here, ?_⟩
    rw [size]
    change t.start.toInt.toNat + _ ≤ _
    omega
  have read : t.view.read js = .ok ((js.drop t.view.start.toNat).take t.view.size) := by
    rw [View.read, if_pos within]
  refine ⟨_, ?_, read⟩
  rw [View.copy, if_neg small, read]

/-- Step by step the two overloads do the same. -/
theorem encode_alike (fuel : Nat) {ts : List Jsmntok} (formed : ∀ t ∈ ts, t.Formed js) :
    EncodersAlike js (encodeValue lexicalDouble js fuel) (encodeAny lexicalDouble js fuel) ts := by
  induction fuel generalizing ts with
  | zero => exact fun _ _ _ _ => .faulted
  | succ fuel ih =>
      intro count v a values
      simp only [encodeValue, encodeAny]
      by_cases none_ : count = 0
      · rw [if_pos none_, if_pos none_]
        exact .returned ⟨values, rfl⟩
      · rw [if_neg none_, if_neg none_]
        cases ts with
        | nil => exact .faulted
        | cons t rest =>
            have later (j : Nat) : EncodersAlike js (encodeValue lexicalDouble js fuel)
                (encodeAny lexicalDouble js fuel) (rest.drop j) :=
              ih fun u there => formed u (List.mem_cons_of_mem t (List.mem_of_mem_drop there))
            have here := formed t List.mem_cons_self
            cases type : t.type with
            | none =>
                simp only [type]
                exact .returned ⟨values, rfl⟩
            | some type' =>
                simp only [type]
                cases type' with
                | primitive =>
                    refine (Alike.same _).bind ?_
                    rintro s _ rfl
                    have values : Alike (Corresponds js) (primitive lexicalDouble .jsonv s)
                        (anyPrimitive lexicalDouble s) := primitive_alike s
                    refine values.bind ?_
                    exact fun v a values => .returned ⟨values, rfl⟩
                | string =>
                    obtain ⟨s, copied, shown⟩ := formed_copy here type
                    simp only [copied]
                    exact .returned ⟨.string shown, rfl⟩
                | object =>
                    refine (members_alike later count t.rounds 0 .nil).bind ?_
                    rintro ⟨ms, j⟩ ⟨as, j'⟩ ⟨same, rfl⟩
                    exact .returned ⟨same.corresponds, rfl⟩
                | array =>
                    have reserved : reserve t.size.toInt = .ok () := by
                      rw [reserve, if_neg (Int.not_lt.mpr (here.2 type))]
                    simp only [reserved]
                    refine (elements_alike later count t.rounds 0 .nil).bind ?_
                    rintro ⟨vs, j⟩ ⟨as, j'⟩ ⟨same, rfl⟩
                    exact .returned ⟨.array same, rfl⟩

end Agreement

section Fuel

variable {lexicalDouble : StdString → Option Float} {js : StdString}

/-- The fuel has not run out. -/
def Spared {A : Type} (r : Except Fault A) : Prop := r ≠ .error .exhausted

theorem Spared.bind {A B : Type} {x : Except Fault A} {f : A → Except Fault B} (spared : Spared x)
    (next : ∀ a, Spared (f a)) : Spared (x >>= f) := by
  cases x with
  | error fault => exact fun spent => spared (congrArg Except.error (Except.error.inj spent))
  | ok a => exact next a

theorem spared_ok {A : Type} (a : A) : Spared (Except.ok a) := by
  intro spent
  cases spent

theorem spared_error {A : Type} (other : f ≠ .exhausted) :
    Spared (Except.error f : Except Fault A) := by
  intro spent
  exact other (Except.error.inj spent)

theorem cast_spared {A : Type} (x : Option A) : Spared (cast x) := by
  cases x with
  | none => exact spared_error (by decide)
  | some x => exact spared_ok x

theorem read_spared (view : View) : Spared (view.read js) := by
  rw [View.read]
  split
  next => exact spared_ok _
  next => exact spared_error (by decide)

theorem copy_spared (view : View) : Spared (view.copy js) := by
  rw [View.copy]
  split
  next => exact spared_error (by decide)
  next => exact read_spared view

theorem primitive_spared (s : StdString) : Spared (primitive lexicalDouble .jsonv s) := by
  rw [primitive]
  split
  next => exact (cast_spared _).bind fun _ => spared_ok _
  next =>
    have first : Spared (front .jsonv s) := by
      cases s with
      | nil => exact spared_error (by decide)
      | cons c cs => exact spared_ok _
    refine first.bind ?_
    intro c
    split
    next => exact (cast_spared _).bind fun _ => spared_ok _
    next =>
      split
      next => exact spared_ok _
      next =>
        split
        next => exact spared_ok _
        next => exact (cast_spared _).bind fun _ => spared_ok _

section Loops

variable {enc : List Jsmntok → UInt64 → JsonValue → Except Fault (JsonValue × Nat)}
  {rest : List Jsmntok} (spared : ∀ j count v, Spared (enc (rest.drop j) count v))
  (count : UInt64)
include spared

theorem child_spared (made : JsonValue) (j : Nat) : Spared (child enc rest count made j) :=
  (spared j _ made).bind fun _ => spared_ok _

theorem members_spared (n j : Nat) (ms : List (StdString × JsonValue)) :
    Spared (objectMembers enc rest count n j ms) := by
  induction n generalizing j ms with
  | zero => exact spared_ok _
  | succ n ih =>
      refine (child_spared spared count .null j).bind ?_
      intro k
      refine (child_spared spared count .null k.2).bind ?_
      intro v
      dsimp only
      split
      next => exact ih _ _
      next =>
        split
        next => exact ih _ _
        next => exact spared_error (by decide)

theorem elements_spared (n j : Nat) (vs : List JsonValue) :
    Spared (arrayElements enc rest count n j vs) := by
  induction n generalizing j vs with
  | zero => exact spared_ok _
  | succ n ih => exact (child_spared spared count .null j).bind fun v => ih v.2 _

end Loops

/-- One level for each token is enough. -/
theorem encodeValue_spared {fuel : Nat} {ts : List Jsmntok} (enough : ts.length < fuel)
    (count : UInt64) (v : JsonValue) : Spared (encodeValue lexicalDouble js fuel ts count v) := by
  induction fuel generalizing ts count v with
  | zero => exact absurd enough (Nat.not_lt_zero _)
  | succ fuel ih =>
      simp only [encodeValue]
      split
      next => exact spared_ok _
      next =>
        cases ts with
        | nil => exact spared_error (by decide)
        | cons t rest =>
            have later (j : Nat) (count : UInt64) (v : JsonValue) :
                Spared (encodeValue lexicalDouble js fuel (rest.drop j) count v) := by
              refine ih ?_ count v
              rw [List.length_drop]
              rw [List.length_cons] at enough
              omega
            dsimp only
            cases t.type with
            | none => exact spared_ok _
            | some type =>
                cases type with
                | primitive =>
                    refine (read_spared _).bind fun s => ?_
                    exact (primitive_spared s).bind fun _ => spared_ok _
                | string => exact (copy_spared _).bind fun _ => spared_ok _
                | object => exact (members_spared later count _ _ _).bind fun _ => spared_ok _
                | array => exact (elements_spared later count _ _ _).bind fun _ => spared_ok _

end Fuel

section Tokens

/-! On the tokens that the parser gives, `encode` of a `jsonv::value` is what it is on the parser's
own tokens. -/

/-- A token of the parser, as C has it. -/
def ofToken (t : JsmnToken) : Jsmntok :=
  ⟨some t.type, Int32.ofNat t.start, Int32.ofNat (t.end_.getD t.start), Int32.ofNat t.size⟩

section

variable {js : StdString} {t : JsmnToken} (positions : js.length < 2 ^ 31)
  (inText : Jsmn.InReach js.length t)

include positions inText

theorem size_ofToken : (ofToken t).size.toInt = t.size :=
  Int32.toInt_ofNat_of_lt (inText.counted.trans_lt positions)

theorem rounds_ofToken : (ofToken t).rounds = t.size := by
  rw [Jsmntok.rounds, size_ofToken positions inText, Int.toNat_natCast]

theorem start_ofToken : (ofToken t).start.toInt = t.start :=
  Int32.toInt_ofNat_of_lt ((inText.ordered.trans inText.inside).trans_lt positions)

theorem end_ofToken : (ofToken t).end_.toInt = (t.end_.getD t.start : Nat) :=
  Int32.toInt_ofNat_of_lt (inText.inside.trans_lt positions)

theorem view_ofToken : (ofToken t).view = ⟨t.start, t.end_.getD t.start - t.start⟩ := by
  have ordered := inText.ordered
  have inside := inText.inside
  have size : (((t.end_.getD t.start : Nat) : Int) - t.start) % 2 ^ 64 =
      ((t.end_.getD t.start - t.start : Nat) : Int) := by omega
  rw [Jsmntok.view, start_ofToken positions inText, end_ofToken positions inText, size,
    Int.toNat_natCast]

theorem read_ofToken : (ofToken t).view.read js = .ok (t.text js) := by
  have within : t.start + (t.end_.getD t.start - t.start) ≤ js.length := by
    rw [Nat.add_sub_cancel' inText.ordered]
    exact inText.inside
  rw [view_ofToken positions inText, View.read,
    if_pos ⟨Int.natCast_nonneg _, by simpa using within⟩, JsmnToken.text, Int.toNat_natCast]

theorem copy_ofToken : (ofToken t).view.copy js = .ok (t.text js) := by
  have short : ¬ 2 ^ 63 ≤ (ofToken t).view.size := by
    have := inText.inside
    rw [view_ofToken positions inText]
    dsimp only
    omega
  rw [View.copy, if_neg short, read_ofToken positions inText]

theorem formed_ofToken : (ofToken t).Formed js := by
  rw [Jsmntok.Formed, start_ofToken positions inText, end_ofToken positions inText,
    size_ofToken positions inText]
  refine ⟨fun _ => ⟨Int.natCast_nonneg _, ?_, ?_⟩, fun _ => Int.natCast_nonneg _⟩
  · exact_mod_cast inText.ordered
  · exact_mod_cast inText.inside

end

section Loops

variable {enc : List JsmnToken → Nat → Except Fault (JsonValue × Nat)}
  {enc' : List Jsmntok → UInt64 → JsonValue → Except Fault (JsonValue × Nat)}
  {ts : List JsmnToken} {count : UInt64}
  (same : ∀ j count, SameUnless Fault.wrapped (enc (ts.drop j) count.toNat)
    (enc' ((ts.drop j).map ofToken) count .null))

include same

theorem child_tokens_same (j : Nat) :
    SameUnless Fault.wrapped (Encoders.child enc ts count.toNat j)
      (child enc' (ts.map ofToken) count .null j) := by
  rw [Encoders.child]
  split
  · exact .inl rfl
  · rename_i within
    have counted : (count - UInt64.ofNat j).toNat = count.toNat - j := by
      have small : j < 2 ^ 64 := (Nat.le_of_not_lt within).trans_lt count.toNat_lt
      have value : (UInt64.ofNat j).toNat = j := UInt64.toNat_ofNat_of_lt' small
      have le : UInt64.ofNat j ≤ count := by
        rw [UInt64.le_iff_toNat_le, value]
        exact Nat.le_of_not_lt within
      rw [UInt64.toNat_sub_of_le _ _ le, value]
    have here := same j (count - UInt64.ofNat j)
    rw [counted] at here
    rw [child, ← List.map_drop]
    exact here.bind fun _ => .refl _

theorem members_tokens_same (n j : Nat) (ms : List (StdString × JsonValue)) :
    SameUnless Fault.wrapped (Encoders.members enc ts count.toNat n j ms)
      (objectMembers enc' (ts.map ofToken) count n j ms) := by
  induction n generalizing j ms with
  | zero => exact .refl _
  | succ n ih =>
      refine (child_tokens_same same j).bind fun k => ?_
      refine (child_tokens_same same k.2).bind fun v => ?_
      obtain ⟨key, after⟩ := k
      dsimp only
      split
      next => exact ih _ _
      next =>
        cases key with
        | string name => exact ih _ _
        | _ => exact .refl _

theorem elements_tokens_same (n j : Nat) (vs : List JsonValue) :
    SameUnless Fault.wrapped (Encoders.elements enc ts count.toNat n j vs)
      (arrayElements enc' (ts.map ofToken) count n j vs) := by
  induction n generalizing j vs with
  | zero => exact .refl _
  | succ n ih => exact (child_tokens_same same j).bind fun v => ih v.2 _

end Loops

theorem encodeValue_tokens (lexicalDouble : StdString → Option Float) (fuel : Nat)
    (positions : js.length < 2 ^ 31) {ts : List JsmnToken}
    (inText : ∀ t ∈ ts, Jsmn.InReach js.length t) (count : UInt64) :
    SameUnless Fault.wrapped (encodeWith lexicalDouble .jsonv js fuel ts count.toNat)
      (encodeValue lexicalDouble js fuel (ts.map ofToken) count .null) := by
  induction fuel generalizing ts count with
  | zero => exact .refl _
  | succ fuel ih =>
      have zero : count = 0 ↔ count.toNat = 0 := by
        rw [← UInt64.toNat_inj]
        rfl
      simp only [encodeWith, encodeValue, zero]
      split
      next => exact .refl _
      next =>
        cases ts with
        | nil => exact .refl _
        | cons t rest =>
            have here := inText t List.mem_cons_self
            have later (j : Nat) (count : UInt64) : SameUnless Fault.wrapped
                (encodeWith lexicalDouble .jsonv js fuel (rest.drop j) count.toNat)
                (encodeValue lexicalDouble js fuel ((rest.drop j).map ofToken) count .null) := by
              apply ih
              intro u inside
              exact inText u (List.mem_cons_of_mem t (List.mem_of_mem_drop inside))
            have type : (ofToken t).type = some t.type := rfl
            simp only [List.map_cons, read_ofToken positions here, copy_ofToken positions here,
              rounds_ofToken positions here, type]
            cases t.type with
            | primitive => exact .refl _
            | string => exact .refl _
            | object =>
                exact (members_tokens_same later t.size 0 []).bind fun ms => .refl _
            | array =>
                exact (elements_tokens_same later t.size 0 []).bind fun vs => .refl _

/-- What the parser gives is encoded the same way, and no count goes below zero. -/
theorem encodeValue_parsed (lexicalDouble : StdString → Option Float)
    (positions : js.length < 2 ^ 31) {num : Nat} (room : num < 2 ^ 64) {ts : List JsmnToken}
    (parsed : jsmnParse num js = .ok ts) :
    encodeValue lexicalDouble js (ts.length + 1) (ts.map ofToken) (UInt64.ofNat ts.length) .null =
      encode lexicalDouble .jsonv js ts := by
  have count : (UInt64.ofNat ts.length).toNat = ts.length :=
    UInt64.toNat_ofNat_of_lt' ((jsmnParse_mono le_rfl parsed).2.trans_lt room)
  have same := encodeValue_tokens lexicalDouble (ts.length + 1) positions
    (jsmnParse_inReach parsed) (UInt64.ofNat ts.length)
  rw [count] at same
  exact same.eq_of_ne (encode_ne_wrapped lexicalDouble .jsonv js ts)

/-- So the overloads agree on every text that is parsed. -/
theorem parsed_alike (lexicalDouble : StdString → Option Float) (positions : js.length < 2 ^ 31)
    {num : Nat} (room : num < 2 ^ 64) {ts : List JsmnToken} (parsed : jsmnParse num js = .ok ts) :
    Alike (Counted (Corresponds js)) (encode lexicalDouble .jsonv js ts)
      (encodeAny lexicalDouble js (ts.length + 1) (ts.map ofToken) (UInt64.ofNat ts.length)
        .empty) := by
  have formed : ∀ t ∈ ts.map ofToken, t.Formed js := by
    intro t made
    obtain ⟨u, inside, rfl⟩ := List.mem_map.mp made
    exact formed_ofToken positions (jsmnParse_inReach parsed u inside)
  rw [← encodeValue_parsed lexicalDouble positions room parsed]
  exact encode_alike _ formed _ _ _ .null

end Tokens

end Overloads

open Overloads

/-- Both overloads with the same array of tokens, count and text: they throw alike, or take as
    many tokens and end with the same value. -/
def OverloadsAgree (lexicalDouble : StdString → Option Float) (js : StdString)
    (ts : List Jsmntok) (count : UInt64) (v : JsonValue) (a : AnyValue) : Prop :=
  Alike (Counted (Corresponds js)) (encodeValue lexicalDouble js (ts.length + 1) ts count v)
    (encodeAny lexicalDouble js (ts.length + 1) ts count a)

theorem negative_size_disagrees :
    ¬ ∀ lexicalDouble js ts count v a, Corresponds js v a →
      OverloadsAgree lexicalDouble js ts count v a := by
  intro all
  have same := all (fun _ => none) (ascii "[]") [⟨some .array, 0, 2, -1⟩] 1 .null .empty .null
  change Alike _ (.ok (JsonValue.array [], 1)) (.error .thrown) at same
  cases same

/-- Whatever the sizes of the tokens and the count say of the array, the overloads agree where no
    array token has a negative size and the string tokens lie in the text. -/
theorem overloads_agree (lexicalDouble : StdString → Option Float) {js : StdString}
    {ts : List Jsmntok} (formed : ∀ t ∈ ts, t.Formed js) (count : UInt64)
    (values : Corresponds js v a) :
    OverloadsAgree lexicalDouble js ts count v a ∧
      Spared (encodeValue lexicalDouble js (ts.length + 1) ts count v) :=
  ⟨encode_alike _ formed count v a values, encodeValue_spared (Nat.lt_succ_self _) count v⟩

/-- Two members of one name. -/
def repeatedName : List Jsmntok :=
  [⟨some .object, 0, 13, 2⟩, ⟨some .string, 2, 3, 1⟩, ⟨some .primitive, 5, 6, 0⟩,
    ⟨some .string, 8, 9, 1⟩, ⟨some .primitive, 11, 12, 0⟩]

theorem overloads_agree_repeatedName :
    (OverloadsAgree (fun _ => none) (ascii "\x7b\"a\":1,\"a\":2\x7d") repeatedName 5 .null .empty ∧
        Spared (encodeValue (fun _ => none) (ascii "\x7b\"a\":1,\"a\":2\x7d") 6 repeatedName 5
          .null)) ∧
      encodeValue (fun _ => none) (ascii "\x7b\"a\":1,\"a\":2\x7d") 6 repeatedName 5 .null =
        .ok (.object [(ascii "a", .integer 1)], 5) :=
  ⟨overloads_agree (fun _ => none) (by decide) 5 .null, rfl⟩

end VanillaRtb.Dsl
