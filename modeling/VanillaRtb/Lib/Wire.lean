import Mathlib

/-! # Wire formats of values and of objects saved member by member

A `Wire` writes a value in front of any continuation and reads it back from
there. What comes back is the `image` of the value, which is the value itself
exactly when the format is lossless. A `Layout` is one list of members that
serves as encoder and decoder at once: loading overwrites the listed members of
an existing object and leaves the others alone, so a member that is not listed
keeps what the target object had.
-/

namespace VanillaRtb.Lib

structure Wire (B α : Type) where
  put : α → List B
  get : List B → Option (α × List B)
  image : α → α
  get_put : ∀ a rest, get (put a ++ rest) = some (image a, rest)

namespace Wire

def Lossless (w : Wire B α) : Prop := ∀ a, w.image a = a

/-- A value stored under a code, such as an enumeration under its number. -/
def coded (w : Wire B γ) (code : α → γ) (decode : γ → α) : Wire B α where
  put a := w.put (code a)
  get bs := (w.get bs).map fun found => (decode found.1, found.2)
  image a := decode (w.image (code a))
  get_put a rest := by rw [w.get_put, Option.map_some]

theorem coded_lossless {w : Wire B γ} {code : α → γ} {decode : γ → α} (hw : w.Lossless)
    (recovered : ∀ a, decode (code a) = a) : (w.coded code decode).Lossless := by
  intro a
  simp only [coded, hw (code a), recovered a]

def putAll (w : Wire B α) : List α → List B
  | [] => []
  | a :: as => w.put a ++ putAll w as

def getAll (w : Wire B α) : Nat → List B → Option (List α × List B)
  | 0, bs => some ([], bs)
  | n + 1, bs => do
      let (a, bs) ← w.get bs
      let (as, bs) ← getAll w n bs
      pure (a :: as, bs)

theorem getAll_putAll (w : Wire B α) (as : List α) (rest : List B) :
    w.getAll as.length (w.putAll as ++ rest) = some (as.map w.image, rest) := by
  induction as with
  | nil => rfl
  | cons a as ih =>
      simp only [putAll, List.length_cons, getAll, List.append_assoc, w.get_put,
        Option.bind_eq_bind, Option.bind_some, ih, List.map_cons]
      rfl

/-- A counted sequence: the number of elements, then the elements. -/
def vector (count : Wire B Nat) (exact : count.Lossless) (w : Wire B α) : Wire B (List α) where
  put as := count.put as.length ++ w.putAll as
  get bs := do
    let (n, bs) ← count.get bs
    w.getAll n bs
  image as := as.map w.image
  get_put as rest := by
    simp only [List.append_assoc, count.get_put, exact as.length, Option.bind_eq_bind,
      Option.bind_some, getAll_putAll]

end Wire

/-- One member list of an object of type `S`, with the object that a load leaves
    behind: `copy source target` is `target` with the listed members of `source`. -/
structure Layout (B S : Type) where
  save : S → List B
  load : S → List B → Option (S × List B)
  copy : S → S → S
  load_save : ∀ source target rest,
    load target (save source ++ rest) = some (copy source target, rest)

namespace Layout

def nil : Layout B S where
  save _ := []
  load target bs := some (target, bs)
  copy _ target := target
  load_save _ _ _ := rfl

/-- The members of `l`, then one more member with its own wire format. -/
def field (l : Layout B S) (w : Wire B α) (read : S → α) (write : α → S → S) : Layout B S where
  save source := l.save source ++ w.put (read source)
  load target bs := do
    let (target, bs) ← l.load target bs
    let (a, bs) ← w.get bs
    pure (write a target, bs)
  copy source target := write (w.image (read source)) (l.copy source target)
  load_save source target rest := by
    simp only [List.append_assoc, l.load_save, w.get_put, Option.bind_eq_bind, Option.bind_some]
    rfl

/-- An object read into a default-constructed one. -/
def toWire (l : Layout B S) (fresh : S) : Wire B S where
  put := l.save
  get := l.load fresh
  image source := l.copy source fresh
  get_put source rest := l.load_save source fresh rest

@[simp] theorem nil_copy (source target : S) :
    (nil : Layout B S).copy source target = target := rfl

@[simp] theorem field_copy (l : Layout B S) (w : Wire B α) (read : S → α) (write : α → S → S)
    (source target : S) : (l.field w read write).copy source target =
      write (w.image (read source)) (l.copy source target) := rfl

@[simp] theorem toWire_image (l : Layout B S) (fresh source : S) :
    (l.toWire fresh).image source = l.copy source fresh := rfl

end Layout

end VanillaRtb.Lib
