import CPet.DoubleFormatProofs
import CPet.FormatProofs
import CPet.ObjectPoolProofs

/-! # `Point`

    A point is an object with a method: a struct on the heap with a pointer to the
    function `say_hi`.  `Point__to_str` allocates the text of its `x`, with exactly the
    room that a first `snprintf` asks for; the caller has to free it.

    `malloc` is not checked, so that a program of these calls is undefined as soon
    as an allocation fails.  Apart from that it is undefined exactly when it uses a
    point that has been destroyed or frees something twice.  Otherwise its points
    and texts are as they were made, and what it leaves in the heap is what it has
    neither destroyed nor freed. -/

namespace CPetPoint

open CPetMemory CPetDecimal CPetCString CPetFormat CPetObjectPool

/-! ## The functions -/

/-- The functions that the field `say_hi` is set to. -/
inductive Method where
  | sayHi

/-- `struct Point`. -/
structure Point where
  x : Int32
  y : Int32
  sayHi : Method

/-- What the functions allocate. -/
inductive PointObject where
  | point (p : Point)
  | str (block : Block UInt8)

/-- `say_hi(this)`: what is printed. -/
def sayHi (p : Point) : List UInt8 :=
  render (parse "Hi, I am %d/%d".toList) [ldText p.x.toInt, ldText p.y.toInt]

def Method.call : Method → Point → List UInt8
  | .sayHi => CPetPoint.sayHi

/-- `p->say_hi(p)` -/
def callSayHi (p : Nat) (heap : Heap PointObject) : Option (List UInt8) :=
  match heap.live p with
  | some (.point point) => some (point.sayHi.call point)
  | _ => none

/-- `Point__create(x, y)`; without memory it stores through a null pointer. -/
def pointCreate (mallocOk : Bool) (x y : Int32) (heap : Heap PointObject) :
    Option (Nat × Heap PointObject) :=
  if mallocOk then some (heap.alloc (.point ⟨x, y, .sayHi⟩)) else none

/-- `snprintf(str, n, ..)` of a text: it stores what fits `n` bytes, and returns the
    length of the whole. -/
def snprintf (str : Block UInt8) (n : Nat) (text : List UInt8) : Block UInt8 × Nat :=
  (if n = 0 then str else str.storeList 0 (text.take (n - 1) ++ [0]), text.length)

/-- `Point___itoa(x)`; `stale` is what `malloc` leaves in the string. -/
def pointItoa (mallocOk : Bool) (stale : Nat → UInt8) (x : Int32) (heap : Heap PointObject) :
    Option (Nat × Heap PointObject) :=
  -- `snprintf(NULL, 0, ..)` stores nothing
  let length := (snprintf ⟨0, stale⟩ 0 (ldText x.toInt)).2
  if mallocOk then
    some (heap.alloc (.str (snprintf ⟨length + 1, stale⟩ (length + 1) (ldText x.toInt)).1))
  else none

/-- `Point__to_str(self)`. -/
def pointToStr (mallocOk : Bool) (stale : Nat → UInt8) (p : Nat) (heap : Heap PointObject) :
    Option (Nat × Heap PointObject) :=
  match heap.live p with
  | some (.point self) => pointItoa mallocOk stale self.x heap
  | _ => none

/-- `free(ptr)` of a block that has been allocated. -/
def free (p : Nat) (heap : Heap PointObject) : Option (Heap PointObject) :=
  if (heap.live p).isSome then some (heap.free p) else none

/-- `Point__destroy(this)`. -/
def pointDestroy (p : Option Nat) (heap : Heap PointObject) : Option (Heap PointObject) :=
  match p with
  | some p => free p heap
  | none => some heap

/-! ## Programs -/

/-- A call; points and strings are numbered in the order in which they are made. -/
inductive Command where
  | create (mallocOk : Bool) (x y : Int32)
  | sayHi (i : Nat)
  | toStr (mallocOk : Bool) (stale : Nat → UInt8) (i : Nat)
  /-- `Point__destroy(NULL)`. -/
  | destroyNull
  | destroy (i : Nat)
  | free (i : Nat)

/-- The heap, the pointers returned so far, and what has been printed. -/
structure State where
  heap : Heap PointObject
  vars : List Nat
  stdout : List UInt8

/-- A pointer has been returned. -/
def State.returned (s : State) (r : Nat × Heap PointObject) : State :=
  { s with
    heap := r.2
    vars := s.vars ++ [r.1] }

/-- One call. -/
def exec (s : State) : Command → Option State
  | .create mallocOk x y => (pointCreate mallocOk x y s.heap).map s.returned
  | .sayHi i =>
      (s.vars[i]?.bind fun p => callSayHi p s.heap).map fun text =>
        { s with stdout := s.stdout ++ text }
  | .toStr mallocOk stale i =>
      (s.vars[i]?.bind fun p => pointToStr mallocOk stale p s.heap).map s.returned
  | .destroyNull => (pointDestroy none s.heap).map fun heap => { s with heap := heap }
  | .destroy i =>
      (s.vars[i]?.bind fun p => pointDestroy (some p) s.heap).map fun heap =>
        { s with heap := heap }
  | .free i => (s.vars[i]?.bind fun p => free p s.heap).map fun heap => { s with heap := heap }

/-- A program. -/
def execAll : List Command → State → Option State
  | [], s => some s
  | c :: cs, s => (exec s c).bind (execAll cs)

/-! ## What a program means -/

/-- A point, or the text of a number. -/
inductive Thing where
  | point (x y : Int32)
  | str (x : Int32)

/-- What has been made so far, without what has been destroyed or freed. -/
abbrev Pool := List (Option Thing)

/-- There is a point. -/
def IsPoint (pool : Pool) (i : Nat) : Prop := ∃ x y, pool[i]? = some (some (.point x y))

/-- There is something. -/
def IsLive (pool : Pool) (i : Nat) : Prop := ∃ t, pool[i]? = some (some t)

/-- The allocation of the call succeeds, and what it uses is there. -/
def Command.Legal (pool : Pool) : Command → Prop
  | .create mallocOk _ _ => mallocOk = true
  | .sayHi i => IsPoint pool i
  | .toStr mallocOk _ i => mallocOk = true ∧ IsPoint pool i
  | .destroyNull => True
  | .destroy i => IsLive pool i
  | .free i => IsLive pool i

/-- What a call makes of the pool. -/
def Command.apply (pool : Pool) : Command → Pool
  | .create _ x y => pool ++ [some (.point x y)]
  | .toStr _ _ i =>
      match pool[i]? with
      | some (some (.point x _)) => pool ++ [some (.str x)]
      | _ => pool
  | .destroy i => pool.set i none
  | .free i => pool.set i none
  | _ => pool

/-- What a call prints. -/
def Command.prints (pool : Pool) : Command → List UInt8
  | .sayHi i =>
      match pool[i]? with
      | some (some (.point x y)) => CPetPoint.sayHi ⟨x, y, .sayHi⟩
      | _ => []
  | _ => []

/-- Every call is legal when it is made. -/
def LegalAll : Pool → List Command → Prop
  | _, [] => True
  | pool, c :: cs => c.Legal pool ∧ LegalAll (c.apply pool) cs

/-- The pool after a program. -/
def applyAll (cs : List Command) (pool : Pool) : Pool := cs.foldl Command.apply pool

/-- What a program prints. -/
def printsAll : Pool → List Command → List UInt8
  | _, [] => []
  | pool, c :: cs => c.prints pool ++ printsAll (c.apply pool) cs

/-! ## The string of a number -/

/-- The object holds the decimal of a number, and has no byte to spare. -/
def Spells (block : Block UInt8) (x : Int32) : Prop :=
  ∃ text, cString (cells block.cell block.size) = some text ∧ block.size = text.length + 1
    ∧ denoted text = some (x.toInt : ℚ)

/-- **EXACT ROOM**: the text is not cut, and its terminator is the last byte. -/
theorem spells_snprintf (stale : Nat → UInt8) (x : Int32) :
    Spells (snprintf ⟨(ldText x.toInt).length + 1, stale⟩ ((ldText x.toInt).length + 1)
      (ldText x.toInt)).1 x := by
  have hnul : (0 : UInt8) ∉ ldText x.toInt := by
    intro hmem
    rcases mem_ldText hmem with hminus | hdigit
    · exact absurd hminus (by decide)
    · exact absurd hdigit.1 (by decide)
  refine ⟨ldText x.toInt, ?_, ?_, CPetDoubleFormat.denoted_ldText _⟩
  · have hstored := cells_storeList ⟨(ldText x.toInt).length + 1, stale⟩ (ldText x.toInt ++ [0])
    rw [List.length_append, List.length_singleton] at hstored
    rw [snprintf, if_neg (Nat.succ_ne_zero _), Nat.add_sub_cancel, List.take_length,
      storeList_size, hstored]
    exact cString_append hnul []
  · rw [snprintf, if_neg (Nat.succ_ne_zero _), storeList_size]

/-! ## Programs and pools -/

/-- Something the program has, and where. -/
structure Held where
  ptr : Nat
  thing : Thing

/-- It stands in the heap. -/
def Held.Stands (heap : Heap PointObject) (h : Held) : Prop :=
  match h.thing with
  | .point x y => heap.live h.ptr = some (.point ⟨x, y, .sayHi⟩)
  | .str x => ∃ block, heap.live h.ptr = some (.str block) ∧ Spells block x

theorem Held.Stands.isSome {heap : Heap PointObject} {h : Held} (hst : h.Stands heap) :
    (heap.live h.ptr).isSome := by
  obtain ⟨p, thing⟩ := h
  cases thing with
  | point x y =>
      have hlive : heap.live p = some (.point ⟨x, y, .sayHi⟩) := hst
      rw [hlive]
      rfl
  | str x =>
      obtain ⟨block, hblock, -⟩ := hst
      rw [hblock]
      rfl

/-- Points and strings as objects of one block. -/
def things : Kind PointObject Held where
  blocks h := [h.ptr]
  ptr := Held.ptr
  ptr_mem := fun _ => List.mem_singleton_self _
  Stands := Held.Stands
  live := by
    intro heap h hst a ha
    rw [List.mem_singleton.mp ha]
    exact hst.isSome
  congr := by
    intro heap heap' h hst hsame
    obtain ⟨p, thing⟩ := h
    have hp := hsame p (List.mem_singleton_self _)
    cases thing with
    | point x y => exact hp.trans hst
    | str x =>
        obtain ⟨block, hblock, hspells⟩ := hst
        exact ⟨block, hp.trans hblock, hspells⟩

/-- The program has the things listed. -/
def Simulates (heap₀ : Heap PointObject) (s : State) (held : List (Option Held)) : Prop :=
  Keeps things heap₀ s.heap s.vars held

/-- The pool of the things listed. -/
def poolOf (held : List (Option Held)) : Pool := held.map (Option.map Held.thing)

section Simulation

variable {heap₀ : Heap PointObject} {s : State} {held : List (Option Held)} {i : Nat}

theorem simulates_start (heap₀ : Heap PointObject) : Simulates heap₀ ⟨heap₀, [], []⟩ [] :=
  keeps_start heap₀

/-- What is in the pool is behind a variable. -/
theorem Simulates.split {t : Thing} (hsim : Simulates heap₀ s held)
    (hi : (poolOf held)[i]? = some (some t)) :
    ∃ before h after, held = before ++ some h :: after ∧ before.length = i ∧ h.thing = t
      ∧ s.vars[i]? = some h.ptr ∧ h.Stands s.heap := by
  rw [poolOf, List.getElem?_map, Option.map_eq_some_iff] at hi
  obtain ⟨o, ho, ht⟩ := hi
  obtain ⟨h, rfl, hthing⟩ := Option.map_eq_some_iff.mp ht
  obtain ⟨before, after, rfl, hlength, hvar⟩ := Keeps.split hsim ho
  exact ⟨before, h, after, rfl, hlength, hthing, hvar, Keeps.stands_middle hsim⟩

/-- What is not in the pool is behind none, or behind a pointer that leads nowhere. -/
theorem Simulates.dead (hsim : Simulates heap₀ s held) (hi : ¬ IsLive (poolOf held) i) {p : Nat}
    (hp : s.vars[i]? = some p) : s.heap.live p = none := by
  have hlt : i < held.length := hsim.length ▸ (List.getElem?_eq_some_iff.mp hp).1
  cases ho : held[i] with
  | some h =>
      refine absurd ⟨h.thing, ?_⟩ hi
      rw [poolOf, List.getElem?_map, List.getElem?_eq_getElem hlt, ho]
      rfl
  | none =>
      obtain ⟨p', hp', -, hdead⟩ := (hsim.recorded i).gone (by
        rw [List.getElem?_eq_getElem hlt, ho])
      obtain rfl := Option.some.inj (hp.symm.trans hp')
      exact hdead

/-- **STEP, MAKE**: what has been allocated is added. -/
theorem simulates_alloc (hsim : Simulates heap₀ s held) {object : PointObject} {t : Thing}
    (hst : Held.Stands (s.heap.alloc object).2 ⟨s.heap.next, t⟩) :
    Simulates heap₀ (s.returned (s.heap.alloc object)) (held ++ [some ⟨s.heap.next, t⟩]) := by
  refine Keeps.insert hsim hst ?_ (List.nodup_singleton _) ?_
  · intro a
    show a ∈ [s.heap.next] ↔ s.heap.next ≤ a ∧ a < s.heap.next + 1
    rw [List.mem_singleton]
    omega
  · intro a ha
    exact alloc_live_of_ne _ _ (Nat.ne_of_lt ha)

theorem poolOf_concat (h : Held) : poolOf (held ++ [some h]) = poolOf held ++ [some h.thing] := by
  rw [poolOf, List.map_append]
  rfl

/-- **STEP, FREE**: freeing something that is there takes it out of the pool, and
    freeing anything else is undefined. -/
theorem simulates_free (hsim : Simulates heap₀ s held) :
    (IsLive (poolOf held) i → ∃ heap held', (s.vars[i]?.bind fun p => free p s.heap) = some heap
        ∧ Simulates heap₀ { s with heap := heap } held'
        ∧ poolOf held' = (poolOf held).set i none)
      ∧ (¬ IsLive (poolOf held) i → (s.vars[i]?.bind fun p => free p s.heap) = none) := by
  constructor
  · rintro ⟨t, hi⟩
    obtain ⟨before, h, after, rfl, rfl, -, hvar, hst⟩ := hsim.split hi
    refine ⟨s.heap.freeAll [h.ptr], before ++ none :: after, ?_, Keeps.remove hsim, ?_⟩
    · rw [hvar, Option.bind_some, free, if_pos hst.isSome]
      rfl
    · simp [poolOf]
  · intro hi
    cases hvar : s.vars[i]? with
    | none => rfl
    | some p => rw [Option.bind_some, free, hsim.dead hi hvar, if_neg (by decide)]

/-- Reading a point through a variable. -/
theorem live_point (hsim : Simulates heap₀ s held) {x y : Int32}
    (hi : (poolOf held)[i]? = some (some (.point x y))) :
    ∃ p, s.vars[i]? = some p ∧ s.heap.live p = some (.point ⟨x, y, .sayHi⟩) := by
  obtain ⟨before, ⟨p, thing⟩, after, rfl, rfl, hthing, hvar, hst⟩ := hsim.split hi
  obtain rfl : thing = .point x y := hthing
  exact ⟨p, hvar, hst⟩

/-- Behind the other variables there is no point. -/
theorem not_live_point (hsim : Simulates heap₀ s held) (hi : ¬ IsPoint (poolOf held) i) {p : Nat}
    (hp : s.vars[i]? = some p) (point : Point) : s.heap.live p ≠ some (.point point) := by
  by_cases hlive : IsLive (poolOf held) i
  · obtain ⟨t, ht⟩ := hlive
    obtain ⟨before, ⟨p', thing⟩, after, rfl, rfl, hthing, hvar, hst⟩ := hsim.split ht
    obtain rfl : thing = t := hthing
    obtain rfl := Option.some.inj (hp.symm.trans hvar)
    cases thing with
    | point x y => exact absurd ⟨x, y, ht⟩ hi
    | str x =>
        obtain ⟨block, hblock, -⟩ := hst
        rw [hblock]
        simp
  · rw [hsim.dead hlive hp]
    simp

/-- What a legal call does. -/
structure Does (heap₀ : Heap PointObject) (s : State) (pool : Pool) (c : Command) (s' : State)
    (held' : List (Option Held)) : Prop where
  runs : exec s c = some s'
  simulates : Simulates heap₀ s' held'
  means : poolOf held' = c.apply pool
  prints : s'.stdout = s.stdout ++ c.prints pool

/-- **STEP**: a legal call does to the program's things what it means for the pool. -/
theorem simulates_exec (hsim : Simulates heap₀ s held) {c : Command}
    (hlegal : c.Legal (poolOf held)) :
    ∃ s' held', Does heap₀ s (poolOf held) c s' held' := by
  cases c with
  | create mallocOk x y =>
      have hok : mallocOk = true := hlegal
      have hst : Held.Stands (s.heap.alloc (.point ⟨x, y, .sayHi⟩)).2 ⟨s.heap.next, .point x y⟩ :=
        alloc_live_self s.heap _
      refine ⟨_, _, ?_, simulates_alloc hsim hst, poolOf_concat _, (List.append_nil _).symm⟩
      rw [exec, pointCreate, if_pos hok, Option.map_some]
  | sayHi i =>
      obtain ⟨x, y, hi⟩ := hlegal
      obtain ⟨p, hvar, hlive⟩ := live_point hsim hi
      refine ⟨{ s with stdout := s.stdout ++ CPetPoint.sayHi ⟨x, y, .sayHi⟩ }, held, ?_, hsim, rfl,
        ?_⟩
      · simp only [exec, hvar, Option.bind_some, callSayHi, hlive, Option.map_some,
          Method.call]
      · simp only [Command.prints, hi]
  | toStr mallocOk stale i =>
      obtain ⟨hok, x, y, hi⟩ := hlegal
      obtain ⟨p, hvar, hlive⟩ := live_point hsim hi
      have hst : Held.Stands (s.heap.alloc (.str (snprintf ⟨(ldText x.toInt).length + 1, stale⟩
          ((ldText x.toInt).length + 1) (ldText x.toInt)).1)).2 ⟨s.heap.next, .str x⟩ :=
        ⟨_, alloc_live_self s.heap _, spells_snprintf stale x⟩
      refine ⟨_, _, ?_, simulates_alloc hsim hst, ?_, (List.append_nil _).symm⟩
      · simp only [exec, hvar, Option.bind_some, pointToStr, hlive, pointItoa, hok,
          if_true, Option.map_some]
        rfl
      · rw [poolOf_concat]
        simp only [Command.apply, hi]
  | destroyNull => exact ⟨s, held, rfl, hsim, rfl, (List.append_nil _).symm⟩
  | destroy i =>
      obtain ⟨heap, held', hfree, hsim', hpool⟩ := (simulates_free hsim).1 hlegal
      refine ⟨{ s with heap := heap }, held', ?_, hsim', hpool, (List.append_nil _).symm⟩
      simp only [exec, pointDestroy, hfree, Option.map_some]
  | free i =>
      obtain ⟨heap, held', hfree, hsim', hpool⟩ := (simulates_free hsim).1 hlegal
      refine ⟨{ s with heap := heap }, held', ?_, hsim', hpool, (List.append_nil _).symm⟩
      rw [exec, hfree, Option.map_some]

/-- **STEP, UNDEFINED**: any other call is undefined. -/
theorem exec_of_not_legal (hsim : Simulates heap₀ s held) {c : Command}
    (hlegal : ¬ c.Legal (poolOf held)) : exec s c = none := by
  have hpoint : ∀ {i : Nat} {γ : Type} (f : Point → Option γ), ¬ IsPoint (poolOf held) i →
      (s.vars[i]?.bind fun p => match s.heap.live p with
        | some (.point point) => f point
        | _ => none) = none := by
    intro i γ f hi
    cases hvar : s.vars[i]? with
    | none => rfl
    | some p =>
        rw [Option.bind_some]
        split
        · rename_i point hlive
          exact absurd hlive (not_live_point hsim hi hvar point)
        · rfl
  cases c with
  | create mallocOk x y =>
      have hok : ¬ mallocOk = true := hlegal
      rw [exec, pointCreate, if_neg hok]
      rfl
  | sayHi i =>
      have hnone := hpoint (fun point => some (point.sayHi.call point)) hlegal
      simp only [exec, callSayHi, hnone, Option.map_none]
  | toStr mallocOk stale i =>
      by_cases hi : IsPoint (poolOf held) i
      · -- there is no memory
        have hok : mallocOk = false := by
          cases mallocOk with
          | true => exact absurd ⟨rfl, hi⟩ hlegal
          | false => rfl
        obtain ⟨x, y, hi⟩ := hi
        obtain ⟨p, hvar, hlive⟩ := live_point hsim hi
        simp [exec, hvar, pointToStr, hlive, pointItoa, hok]
      · have hnone := hpoint (fun point => pointItoa mallocOk stale point.x s.heap) hi
        simp only [exec, pointToStr, hnone, Option.map_none]
  | destroyNull => exact absurd trivial hlegal
  | destroy i =>
      have hnone := (simulates_free hsim).2 hlegal
      simp only [exec, pointDestroy, hnone, Option.map_none]
  | free i =>
      have hnone := (simulates_free hsim).2 hlegal
      rw [exec, hnone, Option.map_none]

/-- **RUN**: so do the calls of a legal program, one after the other. -/
theorem simulates_execAll (cs : List Command) :
    ∀ {s : State} {held : List (Option Held)}, Simulates heap₀ s held →
      LegalAll (poolOf held) cs → ∃ s' held', execAll cs s = some s' ∧ Simulates heap₀ s' held'
        ∧ poolOf held' = applyAll cs (poolOf held)
        ∧ s'.stdout = s.stdout ++ printsAll (poolOf held) cs := by
  induction cs with
  | nil =>
      intro s held hsim _
      exact ⟨s, held, rfl, hsim, rfl, (List.append_nil _).symm⟩
  | cons c cs ih =>
      intro s held hsim hlegal
      obtain ⟨s', held', hc⟩ := simulates_exec hsim hlegal.1
      obtain ⟨s'', held'', hrun, hsim'', hpool, hout⟩ := ih hc.simulates (hc.means ▸ hlegal.2)
      refine ⟨s'', held'', ?_, hsim'', ?_, ?_⟩
      · rw [execAll, hc.runs, Option.bind_some, hrun]
      · rw [hpool, hc.means]
        rfl
      · rw [hout, hc.prints, hc.means, printsAll, List.append_assoc]

/-- A program with a call that is not legal comes to it, and is undefined. -/
theorem execAll_of_not_legal (cs : List Command) :
    ∀ {s : State} {held : List (Option Held)}, Simulates heap₀ s held →
      ¬ LegalAll (poolOf held) cs → execAll cs s = none := by
  induction cs with
  | nil =>
      intro s held _ hlegal
      exact absurd trivial hlegal
  | cons c cs ih =>
      intro s held hsim hlegal
      by_cases hc : c.Legal (poolOf held)
      · obtain ⟨s', held', hdoes⟩ := simulates_exec hsim hc
        rw [execAll, hdoes.runs, Option.bind_some]
        refine ih hdoes.simulates ?_
        rw [hdoes.means]
        exact fun hrest => hlegal ⟨hc, hrest⟩
      · rw [execAll, exec_of_not_legal hsim hc]
        rfl

end Simulation

/-! ## Whole programs -/

/-- **DEFINED**: a program is defined if and only if every allocation succeeds, every
    call on a point finds one that has not been destroyed, and nothing is destroyed
    or freed twice. -/
theorem point_program_defined_iff (heap₀ : Heap PointObject) (cs : List Command) :
    (execAll cs ⟨heap₀, [], []⟩).isSome ↔ LegalAll [] cs := by
  constructor
  · intro hsome
    by_contra hlegal
    rw [execAll_of_not_legal cs (simulates_start heap₀) hlegal] at hsome
    exact Bool.noConfusion hsome
  · intro hlegal
    obtain ⟨s, held, hrun, -⟩ := simulates_execAll cs (simulates_start heap₀) hlegal
    rw [hrun]
    rfl

/-- **WHAT A PROGRAM DOES**: it prints what its points say; every point not destroyed is
    as it was created, every string not freed spells the `x` of its point in a block
    without a byte to spare; and the heap is as it was before exactly when
    everything has been destroyed or freed. -/
theorem point_program_refines (heap₀ : Heap PointObject) (cs : List Command) {s : State}
    (hrun : execAll cs ⟨heap₀, [], []⟩ = some s) :
    s.stdout = printsAll [] cs
      ∧ (∀ (i : Nat) (x y : Int32), (applyAll cs [])[i]? = some (some (.point x y)) →
          ∃ p, s.vars[i]? = some p ∧ s.heap.live p = some (.point ⟨x, y, .sayHi⟩))
      ∧ (∀ (i : Nat) (x : Int32), (applyAll cs [])[i]? = some (some (.str x)) →
          ∃ p block, s.vars[i]? = some p ∧ s.heap.live p = some (.str block) ∧ Spells block x)
      ∧ ((∀ a, s.heap.live a = heap₀.live a) ↔ ∀ t ∈ applyAll cs [], t = none) := by
  have hlegal : LegalAll [] cs := by
    by_contra hlegal
    rw [execAll_of_not_legal cs (simulates_start heap₀) hlegal] at hrun
    cases hrun
  obtain ⟨s', held, hrun', hsim, hpool, hout⟩ :=
    simulates_execAll cs (simulates_start heap₀) hlegal
  obtain rfl := Option.some.inj (hrun.symm.trans hrun')
  have hpool' : poolOf held = applyAll cs [] := hpool
  rw [← hpool']
  refine ⟨hout, ?_, ?_, ?_⟩
  · intro i x y hi
    exact live_point hsim hi
  · intro i x hi
    obtain ⟨before, ⟨p, thing⟩, after, rfl, rfl, hthing, hvar, hst⟩ := hsim.split hi
    obtain rfl : thing = .str x := hthing
    obtain ⟨block, hblock, hspells⟩ := hst
    exact ⟨p, block, hvar, hblock, hspells⟩
  · rw [Keeps.restored_iff hsim, poolOf, List.forall_mem_map]
    constructor
    · intro hall o ho
      rw [hall o ho]
      rfl
    · intro hall o ho
      exact Option.map_eq_none_iff.mp (hall o ho)

/-- `main1()`. -/
def main1 : List Command := [.create true 12 1, .sayHi 0, .destroy 0]

theorem point_program_refines_main1 :
    ∃ s, execAll main1 ⟨Heap.empty, [], []⟩ = some s ∧ s.stdout = printsAll [] main1
      ∧ (∀ (i : Nat) (x y : Int32), (applyAll main1 [])[i]? = some (some (.point x y)) →
          ∃ p, s.vars[i]? = some p ∧ s.heap.live p = some (.point ⟨x, y, .sayHi⟩))
      ∧ (∀ (i : Nat) (x : Int32), (applyAll main1 [])[i]? = some (some (.str x)) →
          ∃ p block, s.vars[i]? = some p ∧ s.heap.live p = some (.str block) ∧ Spells block x)
      ∧ ((∀ a, s.heap.live a = Heap.empty.live a) ↔ ∀ t ∈ applyAll main1 [], t = none) :=
  ⟨_, rfl, point_program_refines Heap.empty main1 rfl⟩

end CPetPoint
