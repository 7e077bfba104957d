import VanillaRtb.Lib.Octets
import VanillaRtb.Lib.Outcome
import VanillaRtb.Lib.Wire
import VanillaRtb.StdString

/-! # String views out of an archive

A string view is saved as its size and its bytes. It is loaded into a string that the thread
keeps, which was made as long as the first one that was loaded into it; the view that comes
out shows the whole of that string. So later loads write over what earlier views show, and a
longer string is written over the end of it.
-/

namespace VanillaRtb.Messaging

open Lib

/-- What a string view can show, its size being a `size_t`. -/
abbrev SizedString := { s : StdString // s.length < 2 ^ 64 }

/-- A binary archive as its documentation has it, for what a string view needs of it. -/
structure CharArchive (B : Type) where
  header : Wire B Unit
  size : Wire B Nat
  char : Wire B UInt8
  size_lossless : ∀ n, n < 2 ^ 64 → size.image n = n
  char_lossless : char.Lossless

/-- The archive throws, a byte is written behind the buffer, or the `int` that counts the bytes
    goes over its largest value. -/
inductive LoadFault where
  | thrown
  | outside
  | overflow
  deriving DecidableEq

/-- A view from the beginning of the buffer of the thread. -/
structure StringView where
  size : Nat
  deriving DecidableEq

variable {B : Type}

namespace CharArchive

variable (ar : CharArchive B)

/-- `save` -/
def save (s : SizedString) : List B := ar.size.put s.1.length ++ ar.char.putAll s.1

/-- `value_[i] = c`. Behind the last byte there is a zero, which may only be written again. -/
def write (buffer : StdString) (i : Nat) (c : UInt8) : Except LoadFault StdString :=
  if i < buffer.length then .ok (buffer.set i c)
  else if i = buffer.length ∧ c = 0 then .ok buffer
  else .error .outside

/-- The loop of `load`, with the bytes still to come. -/
def fill : Nat → Nat → StdString → List B → Except LoadFault (StdString × List B)
  | 0, _, buffer, bs => .ok (buffer, bs)
  | n + 1, i, buffer, bs =>
      match ar.char.get bs with
      | none => .error .thrown
      | some (c, bs) => do
          let buffer ← write buffer i c
          if i + 1 = 2 ^ 31 then .error .overflow else fill n (i + 1) buffer bs

/-- `load`. The thread has no buffer before the first one. -/
def load (thread : Option StdString) (bs : List B) :
    Except LoadFault (StringView × StdString × List B) :=
  match ar.size.get bs with
  | none => .error .thrown
  | some (n, bs) => do
      let (buffer, bs) ← ar.fill n 0 (thread.getD (List.replicate n 0)) bs
      pure (⟨buffer.length⟩, buffer, bs)

def loadAll : Nat → Option StdString → List B →
    Except LoadFault (List StringView × Option StdString × List B)
  | 0, thread, bs => .ok ([], thread, bs)
  | n + 1, thread, bs => do
      let (view, buffer, bs) ← ar.load thread bs
      let (views, thread, bs) ← loadAll n (some buffer) bs
      pure (view :: views, thread, bs)

/-- An archive that string views were saved to. -/
def serialize (ss : List SizedString) : List B := ar.header.put () ++ ss.flatMap ar.save

/-- The views that were saved are loaded again, archive by archive, by one thread. -/
def deserializeAll : Option StdString → List (List SizedString) →
    Except LoadFault (List StringView × Option StdString)
  | thread, [] => .ok ([], thread)
  | thread, ss :: archives =>
      match ar.header.get (ar.serialize ss) with
      | none => .error .thrown
      | some (_, bs) => do
          let (views, thread, _) ← ar.loadAll ss.length thread bs
          let (more, thread) ← deserializeAll thread archives
          pure (views ++ more, thread)

/-- What a view shows. -/
def shown (thread : Option StdString) (view : StringView) : StdString :=
  (thread.getD []).take view.size

/-- All loads return, and in the end the views show what was saved, in order. -/
def Restores (thread : Option StdString) (archives : List (List SizedString)) : Prop :=
  ∃ views thread', ar.deserializeAll thread archives = .ok (views, thread') ∧
    views.map (shown thread') = archives.flatten.map Subtype.val

variable {ar} {thread thread' : Option StdString} {buffer buffer' : StdString} {rest bs : List B}

theorem length_write {c : UInt8} (written : write buffer i c = .ok buffer') :
    buffer'.length = buffer.length := by
  unfold write at written
  split at written
  next =>
    cases written
    exact List.length_set
  next =>
    split at written
    next =>
      cases written
      rfl
    next => cases written

/-- A load that returns has left the buffer as long as it was. -/
theorem fill_ok {s : StdString} (small : i < 2 ^ 31)
    (filled : ar.fill s.length i buffer (ar.char.putAll s ++ rest) = .ok (buffer', bs)) :
    buffer'.length = buffer.length ∧ bs = rest ∧ i + s.length < 2 ^ 31 := by
  induction s generalizing i buffer with
  | nil =>
      cases filled
      exact ⟨rfl, rfl, small⟩
  | cons c s ih =>
      simp only [List.length_cons, fill, Wire.putAll, List.append_assoc, ar.char.get_put] at filled
      obtain ⟨buffer₁, written, filled⟩ := bind_eq_ok.mp filled
      split at filled
      next => cases filled
      next more =>
        obtain ⟨same, read, bound⟩ := ih (by omega) filled
        refine ⟨same.trans (length_write written), read, ?_⟩
        rw [List.length_cons]
        omega

/-- As long as there is room and the counter is small, the bytes replace those of the buffer. -/
theorem fill_fits {s : StdString} (room : i + s.length ≤ buffer.length)
    (small : i + s.length < 2 ^ 31) :
    ar.fill s.length i buffer (ar.char.putAll s ++ rest) =
      .ok (buffer.take i ++ s ++ buffer.drop (i + s.length), rest) := by
  induction s generalizing i buffer with
  | nil => simp [fill, Wire.putAll]
  | cons c s ih =>
      rw [List.length_cons] at room small
      have written : write buffer i (ar.char.image c) = .ok (buffer.set i c) := by
        rw [write, if_pos (by omega), ar.char_lossless c]
      simp only [List.length_cons, fill, Wire.putAll, List.append_assoc, ar.char.get_put, written]
      change (if i + 1 = 2 ^ 31 then _ else ar.fill s.length (i + 1) (buffer.set i c) _) = _
      rw [if_neg (by omega), ih (by rw [List.length_set]; omega) (by omega)]
      have here : i < (buffer.set i c).length := by
        rw [List.length_set]
        omega
      have front : (buffer.set i c).take (i + 1) = buffer.take i ++ [c] := by
        rw [List.take_succ_eq_append_getElem here, List.getElem_set_self,
          List.take_set_of_le (le_refl i)]
      have back : (buffer.set i c).drop (i + 1 + s.length) =
          buffer.drop (i + (s.length + 1)) := by
        rw [List.drop_set_of_lt (by omega)]
        congr 1
        omega
      simp only [front, back, List.append_assoc, List.cons_append, List.nil_append]

/-- Whatever is loaded, a thread keeps the length of its buffer, and the views show all of it. -/
structure Aliases (thread thread' : Option StdString) (views : List StringView) : Prop where
  kept : ∀ b, thread = some b → ∃ b', thread' = some b' ∧ b'.length = b.length
  whole : ∀ view ∈ views, ∃ b', thread' = some b' ∧ view.size = b'.length

theorem Aliases.refl (thread : Option StdString) : Aliases thread thread [] where
  kept b held := ⟨b, held, rfl⟩
  whole view given := by cases given

theorem Aliases.trans (first : Aliases thread thread' views)
    (second : Aliases thread' thread'' more) : Aliases thread thread'' (views ++ more) where
  kept b held := by
    obtain ⟨b', held', same'⟩ := first.kept b held
    obtain ⟨b'', held'', same''⟩ := second.kept b' held'
    exact ⟨b'', held'', same''.trans same'⟩
  whole view given := by
    rcases List.mem_append.mp given with earlier | later
    · obtain ⟨b', held', size⟩ := first.whole view earlier
      obtain ⟨b'', held'', same⟩ := second.kept b' held'
      exact ⟨b'', held'', size.trans same.symm⟩
    · exact second.whole view later

theorem load_ok {s : SizedString}
    (loaded : ar.load thread (ar.save s ++ rest) = .ok (view, buffer, bs)) :
    Aliases thread (some buffer) [view] ∧ bs = rest ∧ s.1.length < 2 ^ 31 := by
  simp only [load, save, List.append_assoc, ar.size.get_put, ar.size_lossless _ s.2] at loaded
  obtain ⟨result, filled, returned⟩ := bind_eq_ok.mp loaded
  cases returned
  obtain ⟨same, read, small⟩ := fill_ok (by decide) filled
  refine ⟨⟨?_, ?_⟩, read, by omega⟩
  · rintro b rfl
    exact ⟨_, rfl, same⟩
  · intro view given
    rw [List.mem_singleton.mp given]
    exact ⟨_, rfl, rfl⟩

/-- Where the buffer has the length of the string, or there is none yet, it holds the string
    then. -/
theorem load_fits {s : SizedString} (small : s.1.length < 2 ^ 31)
    (same : ∀ b, thread = some b → b.length = s.1.length) :
    ar.load thread (ar.save s ++ rest) = .ok (⟨s.1.length⟩, s.1, rest) := by
  have length : (thread.getD (List.replicate s.1.length 0)).length = s.1.length := by
    cases thread with
    | none => exact List.length_replicate
    | some b => exact same b rfl
  have filled : ar.fill s.1.length 0 (thread.getD (List.replicate s.1.length 0))
      (ar.char.putAll s.1 ++ rest) = .ok (s.1, rest) := by
    rw [fill_fits (by omega) (by omega), List.take_zero, List.nil_append, Nat.zero_add,
      List.drop_eq_nil_of_le length.le, List.append_nil]
  simp only [load, save, List.append_assoc, ar.size.get_put, ar.size_lossless _ s.2, filled]
  rfl

theorem loadAll_ok {ss : List SizedString}
    (loaded : ar.loadAll ss.length thread (ss.flatMap ar.save ++ rest) =
      .ok (views, thread', bs)) :
    Aliases thread thread' views ∧ ∀ s ∈ ss, s.1.length < 2 ^ 31 := by
  induction ss generalizing thread views with
  | nil =>
      cases loaded
      exact ⟨.refl _, nofun⟩
  | cons s ss ih =>
      rw [List.length_cons, loadAll, List.flatMap_cons, List.append_assoc] at loaded
      obtain ⟨⟨view, buffer, bs'⟩, first, loaded⟩ := bind_eq_ok.mp loaded
      obtain ⟨aliases, rfl, small⟩ := load_ok first
      obtain ⟨⟨more, thread₁, bs₁⟩, later, returned⟩ := bind_eq_ok.mp loaded
      cases returned
      obtain ⟨aliases', small'⟩ := ih later
      exact ⟨aliases.trans aliases', List.forall_mem_cons.mpr ⟨small, small'⟩⟩

theorem deserializeAll_ok {archives : List (List SizedString)}
    (loaded : ar.deserializeAll thread archives = .ok (views, thread')) :
    Aliases thread thread' views ∧ ∀ s ∈ archives.flatten, s.1.length < 2 ^ 31 := by
  induction archives generalizing thread views with
  | nil =>
      cases loaded
      exact ⟨.refl _, nofun⟩
  | cons ss archives ih =>
      simp only [deserializeAll, serialize, ar.header.get_put] at loaded
      obtain ⟨⟨views₁, thread₁, bs⟩, first, loaded⟩ := bind_eq_ok.mp loaded
      obtain ⟨⟨more, thread₂⟩, later, returned⟩ := bind_eq_ok.mp loaded
      cases returned
      rw [← List.append_nil (ss.flatMap ar.save)] at first
      obtain ⟨aliases, small⟩ := loadAll_ok first
      obtain ⟨aliases', small'⟩ := ih later
      refine ⟨aliases.trans aliases', ?_⟩
      intro s inside
      rw [List.flatten_cons, List.mem_append] at inside
      exact inside.elim (small s) (small' s)

/-- The buffer of a thread that has loaded nothing but the string `s`, if anything. -/
def Holds (s : SizedString) (thread : Option StdString) : Prop :=
  ∀ b, thread = some b → b.length = s.1.length

theorem holds_some (s : SizedString) : Holds s (some s.1) := by
  rintro b ⟨⟩
  rfl

theorem loadAll_same {s : SizedString} {ss : List SizedString} (same : ∀ t ∈ ss, t = s)
    (fits : ss ≠ [] → s.1.length < 2 ^ 31 ∧ Holds s thread) :
    ar.loadAll ss.length thread (ss.flatMap ar.save ++ rest) =
      .ok (ss.map fun _ => ⟨s.1.length⟩, if ss = [] then thread else some s.1, rest) := by
  induction ss generalizing thread with
  | nil => rfl
  | cons t ss ih =>
      obtain rfl := same t List.mem_cons_self
      obtain ⟨small, holds⟩ := fits (List.cons_ne_nil t ss)
      rw [List.length_cons, loadAll, List.flatMap_cons, List.append_assoc, load_fits small holds]
      have later := ih (fun t' inside => same t' (List.mem_cons_of_mem t inside))
        fun _ => ⟨small, holds_some t⟩
      rw [ite_self] at later
      change (ar.loadAll ss.length (some t.1) _ >>= _) = _
      rw [later]
      rfl

theorem deserializeAll_same {s : SizedString} {archives : List (List SizedString)}
    (same : ∀ t ∈ archives.flatten, t = s)
    (fits : archives.flatten ≠ [] → s.1.length < 2 ^ 31 ∧ Holds s thread) :
    ar.deserializeAll thread archives =
      .ok (archives.flatten.map fun _ => ⟨s.1.length⟩,
        if archives.flatten = [] then thread else some s.1) := by
  induction archives generalizing thread with
  | nil => rfl
  | cons ss archives ih =>
      have first : ar.loadAll ss.length thread (ss.flatMap ar.save ++ []) =
          .ok (ss.map fun _ => ⟨s.1.length⟩, if ss = [] then thread else some s.1, []) :=
        loadAll_same (fun t inside => same t (List.mem_append_left _ inside))
          fun some_ => fits (mt List.append_eq_nil_iff.mp fun none_ => some_ none_.1)
      rw [List.append_nil] at first
      have fits' : archives.flatten ≠ [] →
          s.1.length < 2 ^ 31 ∧ Holds s (if ss = [] then thread else some s.1) := by
        intro some_
        obtain ⟨small, holds⟩ := fits (mt List.append_eq_nil_iff.mp fun none_ => some_ none_.2)
        refine ⟨small, ?_⟩
        split
        next => exact holds
        next => exact holds_some s
      have later := ih (fun t inside => same t (List.mem_append_right _ inside)) fits'
      simp only [deserializeAll, serialize, ar.header.get_put, first]
      change (ar.deserializeAll _ archives >>= _) = _
      rw [later, List.flatten_cons, List.map_append]
      by_cases none_ : ss = []
      · subst none_
        rfl
      · rw [if_neg none_, if_neg (mt List.append_eq_nil_iff.mp fun both => none_ both.1), ite_self]
        rfl

/-- The views show what was saved exactly where it is one string over and over, of the length
    that the thread keeps. -/
theorem restores_iff (ar : CharArchive B) (thread : Option StdString)
    (archives : List (List SizedString)) :
    ar.Restores thread archives ↔
      ∀ s ∈ archives.flatten, s.1.length < 2 ^ 31 ∧ Holds s thread ∧
        ∀ t ∈ archives.flatten, t = s := by
  constructor
  · rintro ⟨views, thread', loaded, shows⟩
    obtain ⟨aliases, small⟩ := deserializeAll_ok loaded
    have whole : ∀ s ∈ archives.flatten, thread' = some s.1 := by
      intro s inside
      have given : s.1 ∈ views.map (shown thread') := shows ▸ List.mem_map_of_mem inside
      obtain ⟨view, loaded, shows⟩ := List.mem_map.mp given
      obtain ⟨buffer, held, size⟩ := aliases.whole view loaded
      rw [shown, held, Option.getD_some, size, List.take_length] at shows
      rw [held, shows]
    intro s inside
    refine ⟨small s inside, ?_, ?_⟩
    · intro b held
      obtain ⟨b', held', same⟩ := aliases.kept b held
      rw [whole s inside] at held'
      cases held'
      exact same.symm
    · intro t other
      exact Subtype.ext (Option.some.inj ((whole t other).symm.trans (whole s inside)))
  · intro same
    have loaded (s : SizedString) (only : ∀ t ∈ archives.flatten, t = s)
        (fits : archives.flatten ≠ [] → s.1.length < 2 ^ 31 ∧ Holds s thread) :
        ar.Restores thread archives := by
      refine ⟨_, _, deserializeAll_same only fits, ?_⟩
      rw [List.map_map]
      refine List.map_congr_left ?_
      intro t inside
      rw [if_neg (List.ne_nil_of_mem inside), only t inside]
      exact List.take_length
    cases saved : archives.flatten with
    | nil =>
        rw [saved] at loaded
        exact loaded ⟨[], by decide⟩ nofun fun some_ => absurd rfl some_
    | cons s rest =>
        obtain ⟨small, holds, only⟩ := same s (saved ▸ List.mem_cons_self)
        exact loaded s only fun _ => ⟨small, holds⟩

/-- Eight bytes for a size and one for a character. -/
def bytes : CharArchive UInt8 where
  header :=
    { put := fun _ => []
      get := fun bs => some ((), bs)
      image := fun _ => ()
      get_put := fun _ _ => rfl }
  size :=
    { put := leastBytes 8
      get := fun bs => if 8 ≤ bs.length then some (ofLeastBytes (bs.take 8), bs.drop 8) else none
      image := fun n => ofLeastBytes (leastBytes 8 n)
      get_put := by
        intro n rest
        have length := leastBytes_length 8 n
        rw [if_pos (by rw [List.length_append]; omega), List.take_left' length,
          List.drop_left' length] }
  char :=
    { put := fun c => [c]
      get := fun bs => bs.head?.map fun c => (c, bs.tail)
      image := id
      get_put := fun _ _ => rfl }
  size_lossless n small := ofLeastBytes_leastBytes small
  char_lossless _ := rfl

def ab : SizedString := ⟨ascii "ab", by decide⟩

def cd : SizedString := ⟨ascii "cd", by decide⟩

/-- A second string of the same length takes the place of the first one. -/
theorem second_string_overwrites : ¬ ∀ archives, bytes.Restores none archives := by
  intro all
  obtain ⟨views, thread', loaded, shows⟩ := all [[ab, cd]]
  have buffer : bytes.deserializeAll none [[ab, cd]] = .ok ([⟨2⟩, ⟨2⟩], some (ascii "cd")) := by
    decide +kernel
  rw [buffer] at loaded
  cases loaded
  revert shows
  decide +kernel

/-- One string, in two archives and twice in one of them. -/
theorem one_string_restored : bytes.Restores none [[ab], [ab, ab]] := by
  refine (restores_iff bytes none _).mpr ?_
  have only : ∀ s ∈ [[ab], [ab, ab]].flatten, s = ab := by
    decide
  intro s inside
  obtain rfl := only s inside
  exact ⟨by decide, nofun, only⟩

end CharArchive

end VanillaRtb.Messaging
