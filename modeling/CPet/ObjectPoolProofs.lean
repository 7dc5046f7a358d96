import CPet.OwnershipProofs
import Mathlib.Data.List.Nodup

/-! # Objects held by pointers

    A program keeps pointers to objects that it has allocated.  An object is made
    of blocks of the heap, and whether it stands there depends on these blocks
    alone.

    The objects a program has not freed yet are apart from each other and from
    what was in the heap before.  Allocating an object, changing one and freeing one
    keep that; so they change no other object.  A pointer to an object that has
    been freed leads nowhere.  When the program has freed them all, and only
    then, the heap is as it was. -/

namespace CPetObjectPool

open CPetMemory CPetOwnership

variable {β κ : Type}

/-- A kind of objects: the blocks of each, the pointer to it, and what it takes to
    stand in a heap, which is a matter of its blocks. -/
structure Kind (β κ : Type) where
  blocks : κ → List Nat
  ptr : κ → Nat
  ptr_mem : ∀ x, ptr x ∈ blocks x
  Stands : Heap β → κ → Prop
  live : ∀ {heap : Heap β} {x : κ}, Stands heap x → ∀ a ∈ blocks x, (heap.live a).isSome
  congr : ∀ {heap heap' : Heap β} {x : κ}, Stands heap x →
    (∀ a ∈ blocks x, heap'.live a = heap.live a) → Stands heap' x

/-- The blocks of an object that is held; of one freed there are none. -/
def Kind.blocksOf (K : Kind β κ) : Option κ → List Nat
  | some x => K.blocks x
  | none => []

/-- The variable of an object that is held points to it, and that of one freed to
    where nothing lives. -/
structure Recorded (K : Kind β κ) (heap : Heap β) (vars : List Nat) (held : List (Option κ))
    (i : Nat) : Prop where
  ptr : ∀ x, held[i]? = some (some x) → vars[i]? = some (K.ptr x)
  gone : held[i]? = some none → ∃ p, vars[i]? = some p ∧ p < heap.next ∧ heap.live p = none

/-- The program has the objects listed, in its variables, each apart from the others
    and from what was there before, which is as it was. -/
structure Keeps (K : Kind β κ) (heap₀ heap : Heap β) (vars : List Nat)
    (held : List (Option κ)) : Prop where
  owns : Owns heap (fun a => (heap₀.live a).isSome) (held.flatMap K.blocksOf)
  length : vars.length = held.length
  recorded : ∀ i, Recorded K heap vars held i
  stands : ∀ x, some x ∈ held → K.Stands heap x
  kept : ∀ a, (heap₀.live a).isSome → heap.live a = heap₀.live a

section Kind

variable {K : Kind β κ} {heap₀ heap heap' : Heap β} {vars : List Nat}
variable {held before after : List (Option κ)} {x y : κ}

theorem keeps_start (heap₀ : Heap β) : Keeps K heap₀ heap₀ [] [] where
  owns := owns_start heap₀
  length := rfl
  recorded := by
    intro i
    constructor
    · intro x hi
      cases hi
    · intro hi
      cases hi
  stands := by
    intro x hmem
    cases hmem
  kept := by
    intro a _
    rfl

/-- An object is in the middle of the list, at its variable. -/
theorem Keeps.split (h : Keeps K heap₀ heap vars held) {i : Nat}
    (hi : held[i]? = some (some x)) :
    ∃ before after, held = before ++ some x :: after ∧ before.length = i
      ∧ vars[i]? = some (K.ptr x) := by
  obtain ⟨hlt, hget⟩ := List.getElem?_eq_some_iff.mp hi
  refine ⟨held.take i, held.drop (i + 1), ?_, ?_, (h.recorded i).ptr x hi⟩
  · rw [← hget, ← List.drop_eq_getElem_cons hlt, List.take_append_drop]
  · rw [List.length_take, Nat.min_eq_left (Nat.le_of_lt hlt)]

theorem Keeps.stands_middle (h : Keeps K heap₀ heap vars (before ++ some x :: after)) :
    K.Stands heap x := h.stands x (List.mem_append_right _ List.mem_cons_self)

/-- The owned blocks, with those of one object first. -/
theorem Keeps.owns_front (h : Keeps K heap₀ heap vars (before ++ some x :: after)) :
    Owns heap (fun a => (heap₀.live a).isSome)
      (K.blocks x ++ (before ++ after).flatMap K.blocksOf) := by
  refine h.owns.perm ?_
  have hperm : (before ++ some x :: after).Perm (some x :: (before ++ after)) := List.perm_middle
  exact hperm.flatMap_right K.blocksOf

/-- The blocks of the other objects are others. -/
theorem Keeps.apart (h : Keeps K heap₀ heap vars (before ++ some x :: after))
    (hmem : some y ∈ before ++ after) {a : Nat} (ha : a ∈ K.blocks y) : a ∉ K.blocks x := by
  intro hown
  exact (List.nodup_append.mp h.owns_front.distinct).2.2 a hown a
    (List.mem_flatMap.mpr ⟨_, hmem, ha⟩) rfl

/-- What was there before has other blocks. -/
theorem Keeps.not_mem_blocks (h : Keeps K heap₀ heap vars (before ++ some x :: after)) {a : Nat}
    (ha : (heap₀.live a).isSome) : a ∉ K.blocks x :=
  fun hmem => h.owns_front.apart a (List.mem_append_left _ hmem) ha

/-- When only the blocks of one object are written, the others stand. -/
theorem Keeps.stands_others (h : Keeps K heap₀ heap vars (before ++ some x :: after))
    (hsame : ∀ a, a ∉ K.blocks x → heap'.live a = heap.live a) (hmem : some y ∈ before ++ after) :
    K.Stands heap' y := by
  have hin : some y ∈ before ++ some x :: after :=
    List.perm_middle.mem_iff.mpr (List.mem_cons_of_mem _ hmem)
  exact K.congr (h.stands y hin) (fun a ha => hsame a (h.apart hmem ha))

/-- And what was there before is kept. -/
theorem Keeps.kept_others (h : Keeps K heap₀ heap vars (before ++ some x :: after))
    (hsame : ∀ a, a ∉ K.blocks x → heap'.live a = heap.live a) {a : Nat}
    (ha : (heap₀.live a).isSome) : heap'.live a = heap₀.live a := by
  rw [← h.kept a ha]
  exact hsame a (h.not_mem_blocks ha)

/-- Variables stay recorded when nothing comes to life at an address handed out. -/
theorem Recorded.mono {i : Nat} (h : Recorded K heap vars held i) (hnext : heap.next ≤ heap'.next)
    (hdead : ∀ a, a < heap.next → heap.live a = none → heap'.live a = none) :
    Recorded K heap' vars held i where
  ptr := h.ptr
  gone := by
    intro hi
    obtain ⟨p, hp, hlt, hnone⟩ := h.gone hi
    exact ⟨p, hp, Nat.lt_of_lt_of_le hlt hnext, hdead p hlt hnone⟩

/-- Replacing one object of the list keeps the variables of the others. -/
theorem recorded_middle {o o' : Option κ}
    (hold : ∀ i, Recorded K heap vars (before ++ o :: after) i)
    (hptr : ∀ x, o' = some x → vars[before.length]? = some (K.ptr x))
    (hgone : o' = none → ∃ p, vars[before.length]? = some p ∧ p < heap.next ∧ heap.live p = none)
    (i : Nat) : Recorded K heap vars (before ++ o' :: after) i := by
  by_cases hi : i = before.length
  · have hmiddle : (before ++ o' :: after)[i]? = some o' := by
      rw [hi, List.getElem?_append_right (Nat.le_refl _), Nat.sub_self]
      rfl
    rw [← hi] at hptr hgone
    refine ⟨?_, ?_⟩
    · intro x hx
      exact hptr x (Option.some.inj (hmiddle.symm.trans hx))
    · intro hx
      exact hgone (Option.some.inj (hmiddle.symm.trans hx))
  · have hset : before ++ o' :: after = (before ++ o :: after).set before.length o' := by
      rw [List.set_append_right _ _ (Nat.le_refl _), Nat.sub_self]
      rfl
    have hsame : (before ++ o' :: after)[i]? = (before ++ o :: after)[i]? := by
      rw [hset, List.getElem?_set_ne (Ne.symm hi)]
    exact ⟨fun x hx => (hold i).ptr x (hsame ▸ hx), fun hx => (hold i).gone (hsame ▸ hx)⟩

/-- The variable of one more object comes last. -/
theorem Recorded.concat {i : Nat} (h : Recorded K heap vars held i)
    (hlength : vars.length = held.length) :
    Recorded K heap (vars ++ [K.ptr x]) (held ++ [some x]) i := by
  rcases Nat.lt_trichotomy i held.length with hlt | heq | hgt
  · have hheld : (held ++ [some x])[i]? = held[i]? := List.getElem?_append_left hlt
    have hvars : (vars ++ [K.ptr x])[i]? = vars[i]? :=
      List.getElem?_append_left (hlength ▸ hlt)
    refine ⟨fun y hy => hvars.trans (h.ptr y (hheld.symm.trans hy)), ?_⟩
    intro hy
    obtain ⟨p, hp, hdead⟩ := h.gone (hheld.symm.trans hy)
    exact ⟨p, hvars.trans hp, hdead⟩
  · have hheld : (held ++ [some x])[i]? = some (some x) := by
      rw [heq, List.getElem?_concat_length]
    have hvars : (vars ++ [K.ptr x])[i]? = some (K.ptr x) := by
      rw [heq, ← hlength, List.getElem?_concat_length]
    constructor
    · intro y hy
      obtain rfl := Option.some.inj (Option.some.inj (hheld.symm.trans hy))
      exact hvars
    · intro hy
      cases Option.some.inj (hheld.symm.trans hy)
  · have hheld : (held ++ [some x])[i]? = none := by
      rw [List.getElem?_eq_none_iff, List.length_append, List.length_singleton]
      exact hgt
    constructor
    · intro y hy
      cases hheld.symm.trans hy
    · intro hy
      cases hheld.symm.trans hy

/-- What was there before has an address handed out. -/
theorem Keeps.lt_next (h : Keeps K heap₀ heap vars held) {a : Nat} (ha : (heap₀.live a).isSome) :
    a < heap.next := by
  refine Nat.lt_of_not_le ?_
  intro hle
  have hlive := (h.owns.live a).mpr (Or.inl ha)
  rw [heap.fresh a hle] at hlive
  exact Bool.noConfusion hlive

/-- Releasing hands out no address. -/
theorem freeAll_next (as : List Nat) : ∀ heap : Heap β, (heap.freeAll as).next = heap.next := by
  induction as with
  | nil => intro heap; rfl
  | cons a as ih => intro heap; exact ih (heap.free a)

/-- **ALLOCATE**: a new object at new addresses is held too. -/
theorem Keeps.insert (h : Keeps K heap₀ heap vars held) (hst : K.Stands heap' x)
    (hnew : ∀ a, a ∈ K.blocks x ↔ heap.next ≤ a ∧ a < heap'.next)
    (hnodup : (K.blocks x).Nodup) (hold : ∀ a, a < heap.next → heap'.live a = heap.live a) :
    Keeps K heap₀ heap' (vars ++ [K.ptr x]) (held ++ [some x]) := by
  refine ⟨?_, ?_, ?_, ?_, ?_⟩
  · rw [List.flatMap_append, List.flatMap_singleton]
    exact h.owns.grow hnew hnodup (K.live hst) hold
  · rw [List.length_append, List.length_append, h.length]
    rfl
  · intro i
    -- the pointer to the new object is a new address
    have hptr := (hnew _).mp (K.ptr_mem x)
    have hmono := (h.recorded i).mono (Nat.le_trans hptr.1 (Nat.le_of_lt hptr.2))
      (fun a ha hnone => (hold a ha).trans hnone)
    exact hmono.concat h.length
  · intro y hmem
    rcases List.mem_append.mp hmem with hin | hlast
    · refine K.congr (h.stands y hin) ?_
      intro a ha
      exact hold a (h.owns.lt_next (List.mem_flatMap.mpr ⟨_, hin, ha⟩))
    · rw [Option.some.inj (List.mem_singleton.mp hlast)]
      exact hst
  · intro a ha
    rw [← h.kept a ha]
    exact hold a (h.lt_next ha)

/-- **CHANGE**: when only the blocks of one object are written, the others stand as
    they did. -/
theorem Keeps.replace (h : Keeps K heap₀ heap vars (before ++ some x :: after))
    (hst : K.Stands heap' y) (hblocks : K.blocks y = K.blocks x) (hptr : K.ptr y = K.ptr x)
    (hsame : ∀ a, a ∉ K.blocks x → heap'.live a = heap.live a) (hnext : heap.next ≤ heap'.next) :
    Keeps K heap₀ heap' vars (before ++ some y :: after) := by
  refine ⟨?_, ?_, ?_, ?_, ?_⟩
  · have hall : (before ++ some y :: after).flatMap K.blocksOf
        = (before ++ some x :: after).flatMap K.blocksOf := by
      rw [List.flatMap_append, List.flatMap_append, List.flatMap_cons, List.flatMap_cons,
        Kind.blocksOf, Kind.blocksOf, hblocks]
    rw [hall]
    refine h.owns.congr ?_
    intro a
    by_cases ha : a ∈ K.blocks x
    · rw [K.live h.stands_middle a ha, K.live hst a (hblocks ▸ ha)]
    · rw [hsame a ha]
  · rw [h.length, List.length_append, List.length_append]
    rfl
  · have hdead : ∀ a, a < heap.next → heap.live a = none → heap'.live a = none := by
      intro a _ hnone
      refine (hsame a ?_).trans hnone
      intro ha
      have hlive := K.live h.stands_middle a ha
      rw [hnone] at hlive
      exact Bool.noConfusion hlive
    refine recorded_middle (fun i => (h.recorded i).mono hnext hdead) ?_ ?_
    · intro z heq
      obtain rfl := Option.some.inj heq
      rw [hptr]
      exact (h.recorded _).ptr x (by simp)
    · intro heq
      cases heq
  · intro z hmem
    rcases List.mem_cons.mp (List.perm_middle.mem_iff.mp hmem) with heq | hother
    · rw [Option.some.inj heq]
      exact hst
    · exact h.stands_others hsame hother
  · intro a ha
    exact h.kept_others hsame ha

/-- **FREE**: freeing the blocks of one object changes nothing else. -/
theorem Keeps.remove (h : Keeps K heap₀ heap vars (before ++ some x :: after)) :
    Keeps K heap₀ (heap.freeAll (K.blocks x)) vars (before ++ none :: after) := by
  have hsame : ∀ a, a ∉ K.blocks x → (heap.freeAll (K.blocks x)).live a = heap.live a := by
    intro a ha
    rw [freeAll_live, if_neg ha]
  refine ⟨?_, ?_, ?_, ?_, ?_⟩
  · have hall : (before ++ none :: after).flatMap K.blocksOf
        = (before ++ after).flatMap K.blocksOf := by
      rw [List.flatMap_append, List.flatMap_append, List.flatMap_cons]
      rfl
    rw [hall]
    exact h.owns_front.freeAll
  · rw [h.length, List.length_append, List.length_append]
    rfl
  · have hnext := freeAll_next (K.blocks x) heap
    refine recorded_middle (fun i => (h.recorded i).mono (Nat.le_of_eq hnext.symm) ?_) ?_ ?_
    · intro a _ hnone
      rw [freeAll_live, hnone, ite_self]
    · intro y heq
      cases heq
    · -- the pointer that is left over
      intro _
      refine ⟨K.ptr x, (h.recorded _).ptr x (by simp), ?_, ?_⟩
      · rw [hnext]
        exact h.owns_front.lt_next (List.mem_append_left _ (K.ptr_mem x))
      · rw [freeAll_live, if_pos (K.ptr_mem x)]
  · intro y hmem
    rcases List.mem_cons.mp (List.perm_middle.mem_iff.mp hmem) with heq | hother
    · cases heq
    · exact h.stands_others hsame hother
  · intro a ha
    exact h.kept_others hsame ha

/-- **RESTORED**: the heap is as it was exactly when every object has been freed. -/
theorem Keeps.restored_iff (h : Keeps K heap₀ heap vars held) :
    (∀ a, heap.live a = heap₀.live a) ↔ ∀ o ∈ held, o = none := by
  constructor
  · intro hsame o ho
    cases o with
    | none => rfl
    | some x =>
        -- an object that is held was not there before
        have hmem : K.ptr x ∈ held.flatMap K.blocksOf :=
          List.mem_flatMap.mpr ⟨_, ho, K.ptr_mem x⟩
        have hlive := h.owns.isSome hmem
        rw [hsame] at hlive
        exact absurd hlive (h.owns.apart _ hmem)
  · intro hnone a
    have hempty : held.flatMap K.blocksOf = [] := by
      refine List.flatMap_eq_nil_iff.mpr ?_
      intro o ho
      rw [hnone o ho]
      rfl
    by_cases ha : (heap₀.live a).isSome
    · exact h.kept a ha
    · have hdead : ¬ (heap.live a).isSome := by
        rw [h.owns.live, hempty]
        simp [ha]
      rw [Option.not_isSome_iff_eq_none.mp hdead, Option.not_isSome_iff_eq_none.mp ha]

end Kind

end CPetObjectPool
