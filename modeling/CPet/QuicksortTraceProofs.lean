import CPet.PrintArrayProofs
import CPet.QuicksortBoundsProofs

/-! # The log that `quicksort` prints

    `swap` is the only writer of the array and prints its first
    `QS_ARRAY_LEN` elements after every exchange.  The output of a run is
    therefore a log: there is one chain of exchanges, all inside the range,
    that explains both the memory and the printed lines, and the lines are the
    arrays along that chain.

    `Logged` relates two machines of one run in this way.  One step logs at
    most one exchange, the relation composes, and so every run is logged. -/

namespace CPetQuicksortTrace

open CPetSegment CPetRun CPetIntArray CPetPrintArray CPetQuicksort

/-! ## Chains of exchanges -/

/-- The elements that the debug print shows. -/
def shown (ar : Int → Int) : List Int := contents ar qsArrayLen.toNat

/-- The memory after a chain of exchanges. -/
def exchanges (ar : Int → Int) (chain : List (Int × Int)) : Int → Int :=
  chain.foldl (fun ar p => exchange ar p.1 p.2) ar

/-- What is shown after each exchange of a chain. -/
def snapshots : (Int → Int) → List (Int × Int) → List (List Int)
  | _, [] => []
  | ar, p :: ps => shown (exchange ar p.1 p.2) :: snapshots (exchange ar p.1 p.2) ps

theorem exchanges_append (ar : Int → Int) (ps qs : List (Int × Int)) :
    exchanges ar (ps ++ qs) = exchanges (exchanges ar ps) qs := by
  rw [exchanges, List.foldl_append]
  rfl

theorem snapshots_append (ar : Int → Int) (ps qs : List (Int × Int)) :
    snapshots ar (ps ++ qs) = snapshots ar ps ++ snapshots (exchanges ar ps) qs := by
  induction ps generalizing ar with
  | nil => rfl
  | cons p ps ih =>
      rw [List.cons_append, snapshots, ih]
      rfl

/-- The last snapshot of a chain shows the memory it ends with. -/
theorem snapshots_concat (ar : Int → Int) (ps : List (Int × Int)) (p : Int × Int) :
    snapshots ar (ps ++ [p])
      = snapshots ar ps ++ [shown (exchanges ar (ps ++ [p]))] := by
  rw [snapshots_append, exchanges_append]
  rfl

/-- The exchanges of a chain stay inside `[0, len)`. -/
def Inside (len : Int) (chain : List (Int × Int)) : Prop :=
  ∀ p ∈ chain, 0 ≤ p.1 ∧ p.1 ≤ p.2 ∧ p.2 < len

theorem Inside.append {len : Int} {ps qs : List (Int × Int)} (hp : Inside len ps)
    (hq : Inside len qs) : Inside len (ps ++ qs) := by
  intro p hmem
  rcases List.mem_append.mp hmem with hl | hr
  · exact hp p hl
  · exact hq p hr

/-- A chain inside a window only rearranges the window. -/
theorem rearranged_exchanges {len : Int} (ar : Int → Int) {chain : List (Int × Int)}
    (h : Inside len chain) : Rearranged 0 (len - 1) ar (exchanges ar chain) := by
  induction chain generalizing ar with
  | nil => exact Rearranged.refl _ _ _
  | cons p ps ih =>
      obtain ⟨h₁, h₂, h₃⟩ := h p List.mem_cons_self
      have hfirst : Rearranged 0 (len - 1) ar (exchange ar p.1 p.2) :=
        rearranged_exchange ar h₁ (by omega) (by omega) (by omega)
      exact hfirst.trans (ih _ (fun q hq => h q (List.mem_cons_of_mem _ hq)))

/-- Every snapshot shows the memory after some prefix of the chain. -/
theorem mem_snapshots {ar : Int → Int} {chain : List (Int × Int)} {row : List Int}
    (h : row ∈ snapshots ar chain) :
    ∃ ps qs, chain = ps ++ qs ∧ row = shown (exchanges ar ps) := by
  induction chain generalizing ar with
  | nil => cases h
  | cons p ps ih =>
      rcases List.mem_cons.mp h with rfl | hrest
      · exact ⟨[p], ps, rfl, rfl⟩
      · obtain ⟨qs, rs, rfl, rfl⟩ := ih hrest
        exact ⟨p :: qs, rs, rfl, rfl⟩

/-! ## Logged runs -/

/-- `t` is `s` after a chain of exchanges, each of them printed. -/
def Logged (len : Int) (chain : List (Int × Int)) (s t : Mem) : Prop :=
  Inside len chain ∧ t.ar = exchanges s.ar chain
    ∧ t.stdout.toList = s.stdout.toList ++ linesText (snapshots s.ar chain)

/-- Steps that neither write nor print. -/
theorem Logged.nil {len : Int} {s t : Mem} (har : t.ar = s.ar) (hout : t.stdout = s.stdout) :
    Logged len [] s t := by
  refine ⟨?_, har, ?_⟩
  · intro p hp
    cases hp
  · rw [hout]
    exact (List.append_nil _).symm

theorem Logged.trans {len : Int} {ps qs : List (Int × Int)} {s t u : Mem}
    (h₁ : Logged len ps s t) (h₂ : Logged len qs t u) : Logged len (ps ++ qs) s u := by
  obtain ⟨hin₁, har₁, hout₁⟩ := h₁
  obtain ⟨hin₂, har₂, hout₂⟩ := h₂
  refine ⟨hin₁.append hin₂, ?_, ?_⟩
  · rw [har₂, har₁, exchanges_append]
  · rw [hout₂, hout₁, har₁, snapshots_append, linesText_append, List.append_assoc]

/-- **THE SWAP** exchanges, and logs the exchange. -/
theorem logged_swap {len i j : Int} (h₁ : 0 ≤ i) (h₂ : i ≤ j) (h₃ : j < len) (m : Mem) :
    Logged len [(i, j)] m (swap i j m) := by
  refine ⟨?_, swap_ar i j m, ?_⟩
  · intro p hp
    rw [List.mem_singleton.mp hp]
    exact ⟨h₁, h₂, h₃⟩
  · rw [swap, stdout_printArray]
    rfl

/-- One step of the loop logs its exchange, if it is one. -/
theorem LoopStep.logged {len : Int} {m m' : Mem} {pc pc' : Pc} {v v' : Locals}
    (h : LoopStep m v pc m' pc' v') (hin : FrameIn len (.loop pc v)) :
    ∃ chain, Logged len chain m m' := by
  obtain ⟨⟨hlo, hhi⟩, ⟨hi₁, -⟩, ⟨-, hj₂⟩, -⟩ := hin
  cases h with
  | exchange hij => exact ⟨_, logged_swap (by omega) (by omega) (by omega) m⟩
  | _ => exact ⟨[], .nil rfl rfl⟩

/-- The exit test exchanges whichever way it goes. -/
theorem logged_test {len : Int} (m : Mem) {v : Locals} (rest : List Frame)
    (hin : FrameIn len (.loop .test v)) :
    ∃ p, Logged len [p] m (step ⟨m, .loop .test v :: rest⟩).mem := by
  obtain ⟨⟨hlo, hhi⟩, ⟨hi₁, -⟩, ⟨hj₁, hj₂⟩, -⟩ := hin
  rcases lt_or_ge v.i v.j with hij | hij
  · rw [step_exchange hij]
    exact ⟨_, logged_swap (by omega) (by omega) (by omega) m⟩
  · rw [step_break hij]
    exact ⟨_, logged_swap hlo (by omega) (by omega) m⟩

/-- **ONE STEP IS LOGGED**, from any machine whose frames are in range. -/
theorem logged_step {len : Int} (s : Machine) (h : Bounded len s) :
    ∃ chain, Logged len chain s.mem (step s).mem := by
  obtain ⟨m, stack⟩ := s
  cases stack with
  | nil => exact ⟨[], .nil rfl rfl⟩
  | cons f rest =>
      have hin : FrameIn len f := h.frames f List.mem_cons_self
      cases f with
      | call lo hi =>
          rcases le_or_gt hi lo with hle | hlt
          · rw [step_return hle]
            exact ⟨[], .nil rfl rfl⟩
          · rw [step_enter hlt]
            exact ⟨[], .nil rfl rfl⟩
      | loop pc v =>
          rcases step_loop m pc v rest with ⟨m', pc', v', hmove, hstep⟩ | ⟨rfl, -⟩
          · rw [hstep]
            exact LoopStep.logged hmove hin
          · obtain ⟨p, hp⟩ := logged_test m rest hin
            exact ⟨[p], hp⟩

/-- **EVERY RUN IS LOGGED.** -/
theorem logged_run {len : Int} (n : Nat) :
    ∀ s : Machine, Bounded len s → ∃ chain, Logged len chain s.mem (step^[n] s).mem := by
  induction n with
  | zero => intro s _; exact ⟨[], .nil rfl rfl⟩
  | succ n ih =>
      intro s h
      obtain ⟨ps, hfirst⟩ := logged_step s h
      obtain ⟨qs, hrest⟩ := ih (step s) (bounded_step s h)
      exact ⟨ps ++ qs, hfirst.trans hrest⟩

/-- **THE OUTPUT IS THE LOG**: at every step of every run, one chain of exchanges
    inside `[0, len)` explains both the memory and the output: reading the output
    back gives the elements after the first exchange, after the second, and so
    on. -/
theorem quicksort_output_logs (ar : Int → Int) (len n : Nat) :
    ∃ chain, Inside len chain
      ∧ (step^[n] (quicksort ar len)).mem.ar = exchanges ar chain
      ∧ readLines (step^[n] (quicksort ar len)).mem.stdout = some (snapshots ar chain) := by
  obtain ⟨chain, hin, har, hout⟩ := logged_run n _ (bounded_quicksort ar len)
  exact ⟨chain, hin, har, readLines_linesText hout⟩

/-! ## The last line -/

/-- A run that passes an exit test logs something. -/
theorem logged_through_test {len : Int} {s : Machine} (hb : Bounded len s) {p n : Nat} (hp : p < n)
    {v : Locals} {rest : List Frame} (hstack : (step^[p] s).stack = .loop .test v :: rest) :
    ∃ chain, chain ≠ [] ∧ Logged len chain s.mem (step^[n] s).mem := by
  have hb' : Bounded len (step^[p] s) := iterate_invariant bounded_step p s hb
  obtain ⟨ps, hbefore⟩ := logged_run p s hb
  have htest : ∃ q, Logged len [q] (step^[p] s).mem (step (step^[p] s)).mem := by
    generalize step^[p] s = t at hb' hstack
    obtain ⟨m, stack⟩ := t
    have hstack' : stack = .loop .test v :: rest := hstack
    subst hstack'
    exact logged_test m rest (hb'.frames _ List.mem_cons_self)
  obtain ⟨q, hat⟩ := htest
  obtain ⟨qs, hafter⟩ := logged_run (n - (p + 1)) _ (bounded_step _ hb')
  have hsplit : step^[n] s = step^[n - (p + 1)] (step (step^[p] s)) := by
    rw [← Function.iterate_succ_apply' step, ← Function.iterate_add_apply, Nat.sub_add_cancel hp]
  refine ⟨ps ++ ([q] ++ qs), ?_, ?_⟩
  · exact List.append_ne_nil_of_right_ne_nil _ (List.cons_ne_nil q qs)
  · rw [hsplit]
    exact hbefore.trans (hat.trans hafter)

/-- A call on at least two elements that returns has logged something. -/
theorem logged_of_halts {lo hi len : Int} (hlt : lo < hi) {n : Nat} {m : Mem} {rest : List Frame}
    (hb : Bounded len ⟨m, .call lo hi :: rest⟩)
    (hn : (step^[n] ⟨m, .call lo hi :: rest⟩).stack = []) :
    ∃ chain, chain ≠ [] ∧ Logged len chain m (step^[n] ⟨m, .call lo hi :: rest⟩).mem := by
  cases n with
  | zero => cases hn
  | succ n =>
      rcases inLoop_run n _ ⟨_, _, inLoop_enter hlt m rest⟩ with ⟨pc, v, hin⟩ | hexit
      · -- a halted machine is in no loop
        have hstack : (step^[n] (step ⟨m, .call lo hi :: rest⟩)).stack = .loop pc v :: rest :=
          hin.stack
        rw [Function.iterate_succ_apply, hstack] at hn
        cases hn
      · obtain ⟨p, v, hp, hin, -⟩ := hexit
        exact logged_through_test hb (Nat.succ_lt_succ hp) hin.stack

/-- A chain inside the elements shown permutes them, at every exchange. -/
theorem perm_of_mem_snapshots {len : Int} (hlen : len ≤ qsArrayLen) {ar : Int → Int}
    {chain : List (Int × Int)} (hin : Inside len chain) {row : List Int}
    (h : row ∈ snapshots ar chain) : row.Perm (shown ar) := by
  obtain ⟨ps, qs, rfl, rfl⟩ := mem_snapshots h
  have hps : Inside len ps := fun p hp => hin p (List.mem_append_left qs hp)
  have hre := (rearranged_exchanges ar hps).mono (le_refl 0)
    (show len - 1 ≤ ((qsArrayLen.toNat : Nat) : Int) - 1 by rw [qsArrayLen] at *; omega)
  exact hre.contents_perm

/-- **THE LAST LINE IS THE RESULT**: a call on at least two elements that returns
    has last printed the first `QS_ARRAY_LEN` elements of its result, those of the
    range in order; and on at most `QS_ARRAY_LEN` elements every line printed
    is a permutation of what was there at the start. -/
theorem quicksort_last_line (ar : Int → Int) {len : Nat} (hlen : 2 ≤ len) (n : Nat) (m : Mem)
    (hret : step^[n] (quicksort ar len) = ⟨m, []⟩) :
    ∃ rows, readLines m.stdout = some (rows ++ [shown m.ar])
      ∧ ((shown m.ar).take len).Pairwise (fun x y => x ≤ y)
      ∧ (len ≤ 10 → ∀ row ∈ rows ++ [shown m.ar], row.Perm (shown ar)) := by
  have hhalt : (step^[n] (quicksort ar len)).stack = [] := by rw [hret]
  obtain ⟨chain, hne, hin, har, hout⟩ :=
    logged_of_halts (show (0 : Int) < len - 1 by omega) (bounded_quicksort ar len) hhalt
  have hmem : (step^[n] ⟨⟨ar, [], ""⟩, [.call 0 (len - 1)]⟩).mem = m := congrArg Machine.mem hret
  rw [hmem] at har hout
  obtain ⟨ps, p, rfl⟩ : ∃ ps p, chain = ps ++ [p] :=
    ⟨chain.dropLast, chain.getLast hne, (List.dropLast_append_getLast hne).symm⟩
  have hrows : snapshots ar (ps ++ [p]) = snapshots ar ps ++ [shown m.ar] := by
    rw [snapshots_concat, har]
  refine ⟨snapshots ar ps, ?_, ?_, ?_⟩
  · rw [← hrows]
    exact readLines_linesText hout
  · have htake : (shown m.ar).take len = contents m.ar (min len 10) := by
      rw [shown, contents, ← List.map_take, List.take_range]
      rfl
    rw [htake]
    refine SortedOn.pairwise_contents ?_
    intro k l hk hkl hl
    exact (sorts_of_returns hret).sorted k l hk hkl (by omega)
  · intro h10 row hrow
    rw [← hrows] at hrow
    exact perm_of_mem_snapshots (show (len : Int) ≤ 10 by omega) hin hrow

theorem quicksort_last_line_pair :
    let ar : Int → Int := fun k => if k = 0 then 2 else 1
    let m := (step^[6] (quicksort ar (2 : Nat))).mem
    ∃ rows, readLines m.stdout = some (rows ++ [shown m.ar])
      ∧ ((shown m.ar).take 2).Pairwise (fun x y => x ≤ y)
      ∧ (2 ≤ 10 → ∀ row ∈ rows ++ [shown m.ar], row.Perm (shown ar)) :=
  quicksort_last_line (fun k => if k = 0 then 2 else 1) (by decide) 6 _ rfl

end CPetQuicksortTrace
