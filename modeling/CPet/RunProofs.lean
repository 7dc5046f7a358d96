import Mathlib.Logic.Function.Iterate
import Mathlib.Order.Basic
import Mathlib.Tactic.Common

/-! # Runs of deterministic machines and counted loops

    A machine is a total step function on states; a run of `n` steps is its
    `n`-th iterate.  Two rules carry all arguments about runs:

    * the INVARIANT rule: what one step preserves holds after every run;
    * the RANKING rule: if outside a goal every step keeps an invariant and
      decreases a natural number, the goal is reached.

    A counted loop `for (k = 0; k < n; k++)` is the recursion `forRange`, with
    the same invariant rule indexed by the counter.  A guarded loop `while (c) b`
    is a `Loop`, which carries the rank that makes it end; besides its invariant
    rule there is a SIMULATION rule between two of them. -/

namespace CPetRun

variable {σ : Type}

/-- Some finite run leads from `s` to `t`. -/
def Reaches (step : σ → σ) (s t : σ) : Prop :=
  ∃ n : Nat, step^[n] s = t

theorem Reaches.refl (step : σ → σ) (s : σ) : Reaches step s s :=
  ⟨0, rfl⟩

theorem Reaches.trans {step : σ → σ} {s t u : σ}
    (h₁ : Reaches step s t) (h₂ : Reaches step t u) : Reaches step s u := by
  obtain ⟨n, hn⟩ := h₁
  obtain ⟨m, hm⟩ := h₂
  refine ⟨m + n, ?_⟩
  rw [Function.iterate_add_apply, hn]
  exact hm

/-- Prepending one step to a run. -/
theorem Reaches.head {step : σ → σ} {s t : σ}
    (h : Reaches step (step s) t) : Reaches step s t := by
  obtain ⟨n, hn⟩ := h
  exact ⟨n + 1, hn⟩

/-- **INVARIANT RULE**: what every step preserves holds along every run. -/
theorem iterate_invariant {step : σ → σ} {I : σ → Prop}
    (hstep : ∀ s, I s → I (step s)) :
    ∀ (n : Nat) (s : σ), I s → I (step^[n] s) := by
  intro n
  induction n with
  | zero => intro s h; exact h
  | succ n ih =>
      intro s h
      exact ih (step s) (hstep s h)

/-- **RANKING RULE WITH A BOUND**: a rank that decreases at every step outside the goal
    leads a run into the goal within as many steps as it counts. -/
theorem steps_of_rank {step : σ → σ} {I G : σ → Prop} (rank : σ → Nat)
    (hdec : ∀ s, I s → ¬ G s → I (step s) ∧ rank (step s) < rank s) :
    ∀ s, I s → ∃ n, n ≤ rank s ∧ I (step^[n] s) ∧ G (step^[n] s) := by
  intro s
  induction hr : rank s using Nat.strongRecOn generalizing s with
  | ind r ih =>
      intro hI
      by_cases hg : G s
      · exact ⟨0, Nat.zero_le r, hI, hg⟩
      · obtain ⟨hI', hlt⟩ := hdec s hI hg
        obtain ⟨n, hn, hgoal⟩ := ih (rank (step s)) (hr ▸ hlt) (step s) rfl hI'
        exact ⟨n + 1, by omega, hgoal⟩

/-- **RANKING RULE**: so the goal is reached. -/
theorem reaches_of_rank {step : σ → σ} {I G : σ → Prop} (rank : σ → Nat)
    (hdec : ∀ s, I s → ¬ G s → I (step s) ∧ rank (step s) < rank s) :
    ∀ s, I s → ∃ t, Reaches step s t ∧ I t ∧ G t := by
  intro s hs
  obtain ⟨n, -, hgoal⟩ := steps_of_rank rank hdec s hs
  exact ⟨_, ⟨n, rfl⟩, hgoal⟩

/-- **COMMUTE RULE**: an operation that commutes with every step of a fold, as long
    as an invariant of the steps holds, commutes with the whole fold. -/
theorem foldl_commute {γ : Type} {f : σ → γ → σ} {g : σ → σ} {I : σ → Prop} (cs : List γ)
    (hstep : ∀ c ∈ cs, ∀ s, I s → I (f s c) ∧ g (f s c) = f (g s) c) :
    ∀ s, I s → g (cs.foldl f s) = cs.foldl f (g s) := by
  induction cs with
  | nil => intro s _; rfl
  | cons c cs ih =>
      intro s h
      obtain ⟨h', hcomm⟩ := hstep c List.mem_cons_self s h
      have hrest := ih (fun d hd => hstep d (List.mem_cons_of_mem _ hd)) (f s c) h'
      rw [List.foldl_cons, hrest, hcomm]
      rfl

/-! ## Counted loops -/

/-- `for (k = 0; k < n; k++) body(k)` on a state. -/
def forRange : Nat → (Nat → σ → σ) → σ → σ
  | 0, _, s => s
  | n + 1, body, s => body n (forRange n body s)

theorem forRange_succ (n : Nat) (body : Nat → σ → σ) (s : σ) :
    forRange (n + 1) body s = body n (forRange n body s) := rfl

/-- **LOOP RULE**: an invariant indexed by the counter survives the loop. -/
theorem forRange_invariant {I : Nat → σ → Prop} {body : Nat → σ → σ} :
    ∀ (n : Nat) {s : σ}, I 0 s →
      (∀ k, k < n → ∀ s, I k s → I (k + 1) (body k s)) →
      I n (forRange n body s) := by
  intro n
  induction n with
  | zero => intro s h _; exact h
  | succ n ih =>
      intro s h hbody
      refine hbody n (Nat.lt_succ_self n) _ (ih h ?_)
      intro k hk
      exact hbody k (Nat.lt_succ_of_lt hk)

/-! ## Guarded loops -/

/-- `while (guard) body`, with a rank that every round decreases. -/
structure Loop (σ : Type) where
  guard : σ → Bool
  body : σ → σ
  rank : σ → Nat
  dec : ∀ s, guard s = true → rank (body s) < rank s

/-- The state in which the loop ends. -/
def Loop.run (l : Loop σ) (s : σ) : σ :=
  if _h : l.guard s = true then l.run (l.body s) else s
termination_by l.rank s
decreasing_by exact l.dec s _h

/-- A loop whose guard is true goes round once and on, -/
theorem Loop.run_of_guard {l : Loop σ} {s : σ} (h : l.guard s = true) :
    l.run s = l.run (l.body s) := by
  rw [run, dif_pos h]

/-- and one whose guard is false has ended. -/
theorem Loop.run_of_not_guard {l : Loop σ} {s : σ} (h : ¬ l.guard s = true) : l.run s = s := by
  rw [run, dif_neg h]

/-- The guard is false at the end. -/
theorem Loop.run_exit (l : Loop σ) (s : σ) : ¬ l.guard (l.run s) = true := by
  induction s using Loop.run.induct l with
  | case1 s h ih =>
      rw [run_of_guard h]
      exact ih
  | case2 s h =>
      rw [run_of_not_guard h]
      exact h

/-- **WHILE RULE**: what every round preserves holds at the end. -/
theorem Loop.run_invariant {l : Loop σ} {I : σ → Prop}
    (hbody : ∀ s, I s → l.guard s = true → I (l.body s)) (s : σ) (hs : I s) : I (l.run s) := by
  induction s using Loop.run.induct l with
  | case1 s h ih =>
      rw [run_of_guard h]
      exact ih (hbody s hs h)
  | case2 s h =>
      rw [run_of_not_guard h]
      exact hs

/-- **SIMULATION RULE**: loops whose guards agree on related states, and whose
    bodies relate them again, end in related states. -/
theorem Loop.run_simulates {τ : Type} {l : Loop σ} {l' : Loop τ} (R : σ → τ → Prop)
    (hguard : ∀ s t, R s t → (l.guard s = true ↔ l'.guard t = true))
    (hbody : ∀ s t, R s t → R (l.body s) (l'.body t)) {s : σ} :
    ∀ {t}, R s t → R (l.run s) (l'.run t) := by
  induction s using Loop.run.induct l with
  | case1 s h ih =>
      intro t ht
      rw [run_of_guard h, run_of_guard ((hguard s t ht).mp h)]
      exact ih (hbody s t ht)
  | case2 s h =>
      intro t ht
      rw [run_of_not_guard h, run_of_not_guard (fun ht' => h ((hguard s t ht).mpr ht'))]
      exact ht

/-! ## 64-bit counters -/

/-- A counter below a 64-bit bound is its own 64-bit value. -/
theorem toNat_counter {k : Nat} {bound : UInt64} (h : k < bound.toNat) :
    (UInt64.ofNat k).toNat = k :=
  UInt64.toNat_ofNat_of_lt' (Nat.lt_trans h bound.toNat_lt)

theorem counter_lt {k : Nat} {bound : UInt64} (h : k < bound.toNat) :
    UInt64.ofNat k < bound := by
  rw [UInt64.lt_iff_toNat_lt, toNat_counter h]
  exact h

end CPetRun
