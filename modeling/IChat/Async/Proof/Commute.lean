import IChat.Async.Proof.Footprint
import Mathlib.Data.List.Count
import Mathlib.Data.List.Perm.Basic
import Mathlib.Data.List.Nodup

/-!
# Independent clients

Clients whose footprints are pairwise apart (`Independent`) commute: the result of a run does not
depend on the order of the schedule (`Config.run_perm`). So a run in which every client reaches
its end has the store and the answers of running the clients one after another, in any order
(`Config.run_eq_inOrder`).
-/

namespace Async

variable {σ π ν ρ ι : Type} [Mem σ π ν]

/-- Every client stays in its own footprint, and different footprints are apart. -/
def Independent (c : Config ι σ π ν ρ) (F : ι → π → Prop) : Prop :=
  (∀ i, Within (F i) (fun _ => True) (c.jobs i).prog) ∧
    ∀ i j, i ≠ j → ∀ p q, F i p → F j q → Mem.Apart σ p q

/-- A client whose operations are apart from those of `a` takes the same step after `a` moved. -/
theorem Job.step_after {a b : Job π ν ρ} {F G : π → Prop} (ha : Within F (fun _ => True) a.prog)
    (hb : Within G (fun _ => True) b.prog) (hFG : ∀ p q, F p → G q → Mem.Apart σ p q) (s : σ) :
    (b.step (a.step s).1).2 = (b.step s).2 := by
  obtain ⟨prog, fate, seen⟩ := b
  cases hb with
  | ret | stop | raise => rfl
  | @read p k hp _ =>
    have hget : Mem.get (a.step s).1 p = Mem.get s p :=
      Away.get_step (ha.mono (fun q hq => hFG q p hq hp) fun _ h => h) s
    generalize (a.step s).1 = s' at hget ⊢
    simp only [Job.step, hget]
    split <;> rfl
  | write =>
    generalize (a.step s).1 = s'
    simp only [Job.step]
    split <;> rfl

/-- The steps of two clients apart reach the same store in both orders. -/
theorem Job.step_store_comm {a b : Job π ν ρ} {F G : π → Prop}
    (ha : Within F (fun _ => True) a.prog) (hb : Within G (fun _ => True) b.prog)
    (hFG : ∀ p q, F p → G q → Mem.Apart σ p q) (s : σ) :
    (b.step (a.step s).1).1 = (a.step (b.step s).1).1 := by
  obtain ⟨prog, fate, seen⟩ := a
  obtain ⟨prog', fate', seen'⟩ := b
  cases ha with
  | ret | stop | raise => rfl
  | read => cases hb <;> cases h : fate.headD true <;> cases h' : fate'.headD true <;>
      simp only [Job.step, h, h', Bool.false_eq_true, ↓reduceIte]
  | write hp _ =>
    cases hb with
    | write hq _ =>
      cases h : fate.headD true <;> cases h' : fate'.headD true <;>
        simp only [Job.step, h, h', Bool.false_eq_true, ↓reduceIte]
      exact Mem.set_comm s _ _ (hFG _ _ hp hq)
    | _ => cases h : fate.headD true <;> cases h' : fate'.headD true <;>
        simp only [Job.step, h, h', Bool.false_eq_true, ↓reduceIte]

namespace Config

variable [DecidableEq ι]

theorem independent_step {c : Config ι σ π ν ρ} {F : ι → π → Prop} (h : Independent c F) (i : ι) :
    Independent (c.step i) F :=
  ⟨within_step (R := fun _ _ => True) h.1 i, h.2⟩

theorem independent_run {c : Config ι σ π ν ρ} {F : ι → π → Prop} (h : Independent c F)
    (sched : List ι) : Independent (c.run sched) F :=
  run_inv (P := fun c => Independent c F) (fun _ i h => independent_step h i) h sched

/-- **Steps of independent clients commute**. -/
theorem step_comm {c : Config ι σ π ν ρ} {F : ι → π → Prop} (h : Independent c F) (i j : ι) :
    (c.step i).step j = (c.step j).step i := by
  by_cases hij : i = j
  · rw [hij]
  have hs := Job.step_store_comm (h.1 i) (h.1 j) (h.2 i j hij) c.store
  have hj := Job.step_after (h.1 i) (h.1 j) (h.2 i j hij) c.store
  have hi := Job.step_after (h.1 j) (h.1 i) (h.2 j i (Ne.symm hij)) c.store
  simp only [step, Function.update_of_ne hij, Function.update_of_ne (Ne.symm hij), hs, hi, hj,
    Function.update_comm hij]

/-- **The result of a run of independent clients is that of any permutation of its schedule**. -/
theorem run_perm {c : Config ι σ π ν ρ} {F : ι → π → Prop} (h : Independent c F)
    {w w' : List ι} (hw : w.Perm w') : c.run w = c.run w' := by
  induction hw generalizing c with
  | nil => rfl
  | cons i _ ih => exact ih (independent_step h i)
  | swap i j w => rw [run_cons, run_cons, run_cons, run_cons, step_comm h]
  | trans _ _ ih1 ih2 => exact (ih1 h).trans (ih2 h)

/-! ## One after another -/

/-- Client `i` runs to its end. -/
def runAlone (c : Config ι σ π ν ρ) (i : ι) : Config ι σ π ν ρ :=
  let r := exec (c.jobs i).prog c.store (c.jobs i).fate
  ⟨r.1, Function.update c.jobs i ⟨r.2, [], none⟩⟩

/-- The clients run one after another. -/
def runInOrder (c : Config ι σ π ν ρ) (order : List ι) : Config ι σ π ν ρ :=
  order.foldl runAlone c

/-- Steps of client `i` only leave the other clients as they are. -/
theorem run_replicate_ne {i j : ι} (h : j ≠ i) (n : Nat) (c : Config ι σ π ν ρ) :
    (c.run (List.replicate n i)).jobs j = c.jobs j := by
  induction n generalizing c with
  | zero => rfl
  | succ n ih => rw [List.replicate_succ, run_cons, ih, step_jobs_ne h]

theorem exec_run_replicate (i : ι) (n : Nat) (c : Config ι σ π ν ρ) :
    exec ((c.run (List.replicate n i)).jobs i).prog (c.run (List.replicate n i)).store
      ((c.run (List.replicate n i)).jobs i).fate = exec (c.jobs i).prog c.store (c.jobs i).fate := by
  induction n generalizing c with
  | zero => rfl
  | succ n ih => rw [List.replicate_succ, run_cons, ih, step_jobs_self, step_store, exec_step]

theorem run_jobs_of_not_mem {i : ι} {w : List ι} (h : i ∉ w) (c : Config ι σ π ν ρ) :
    (c.run w).jobs i = c.jobs i := by
  induction w generalizing c with
  | nil => rfl
  | cons j w ih =>
    simp only [List.mem_cons, not_or] at h
    rw [run_cons, ih h.2, step_jobs_ne h.1]

/-- A schedule is a permutation of one that starts with all the steps of client `i`. -/
theorem perm_replicate_filter (i : ι) (w : List ι) :
    w.Perm (List.replicate (w.count i) i ++ w.filter fun j => !decide (j = i)) := by
  rw [← List.filter_beq i]
  exact (List.filter_append_perm (fun j => decide (j = i)) w).symm

/-- `d` has the store of `c` and, for the clients of `order`, its jobs; the others have finished
alike. -/
theorem run_eq_inOrder_aux {F : ι → π → Prop} (order : List ι) (hnd : order.Nodup) :
    ∀ (c d : Config ι σ π ν ρ) (w : List ι), Independent c F → d.store = c.store →
      (∀ i ∈ order, d.jobs i = c.jobs i) → (∀ i, (d.jobs i).prog = (c.jobs i).prog) →
      (∀ i ∈ w, i ∈ order) → (∀ i ∈ order, ((c.run w).jobs i).prog.Finished) →
      (d.runInOrder order).store = (c.run w).store ∧
        ∀ i, ((d.runInOrder order).jobs i).prog = ((c.run w).jobs i).prog := by
  induction order with
  | nil =>
    intro c d w _ hs _ hp hw _
    cases w with
    | nil => exact ⟨hs, hp⟩
    | cons i w => exact absurd (hw i (.head _)) List.not_mem_nil
  | cons i order ih =>
    intro c d w hc hs hj hp hw hfin
    obtain ⟨hi, hnd⟩ := List.nodup_cons.1 hnd
    have hrun := run_perm hc (perm_replicate_filter i w)
    rw [run_append] at hrun
    set c' := c.run (List.replicate (w.count i) i) with hc'
    set w' := w.filter fun j => !decide (j = i) with hw'
    have hmem : ∀ j ∈ w', j ∈ w ∧ j ≠ i := fun j hj' => by simpa [hw'] using hj'
    -- client `i` has reached its end after its own steps, as nothing later moves it
    have hfi : (c'.jobs i).prog.Finished := by
      have := hfin i (.head _)
      rwa [hrun, run_jobs_of_not_mem fun h => (hmem i h).2 rfl] at this
    have hexec : exec (d.jobs i).prog d.store (d.jobs i).fate = (c'.store, (c'.jobs i).prog) := by
      rw [hj i (.head _), hs, ← exec_run_replicate i (w.count i) c, ← hc', exec_finished hfi]
    rw [hrun]
    refine ih hnd c' (d.runAlone i) w' (independent_run hc _) ?_ ?_ ?_ ?_ ?_
    · simp only [runAlone, hexec]
    · intro j hjo
      have hne : j ≠ i := fun h => hi (h ▸ hjo)
      simp only [runAlone, Function.update_of_ne hne, hc', run_replicate_ne hne]
      exact hj j (.tail _ hjo)
    · intro j
      by_cases hne : j = i
      · subst hne; simp only [runAlone, Function.update_self, hexec]
      · simp only [runAlone, Function.update_of_ne hne, hc', run_replicate_ne hne]
        exact hp j
    · intro j hj'
      obtain ⟨hjw, hne⟩ := hmem j hj'
      exact (List.mem_cons.1 (hw j hjw)).resolve_left hne
    · intro j hjo
      rw [← hrun]
      exact hfin j (.tail _ hjo)

/-- **A run of independent clients that all reach their end** has the store and the answers of
running them one after another, in any order. -/
theorem run_eq_inOrder {c : Config ι σ π ν ρ} {F : ι → π → Prop} (hc : Independent c F)
    {w order : List ι} (hnd : order.Nodup) (hall : ∀ i, i ∈ order)
    (hfin : ∀ i, ((c.run w).jobs i).prog.Finished) :
    (c.run w).store = (c.runInOrder order).store ∧
      ∀ i, ((c.run w).jobs i).prog = ((c.runInOrder order).jobs i).prog := by
  obtain ⟨h1, h2⟩ := run_eq_inOrder_aux (F := F) order hnd c c w hc rfl (fun _ _ => rfl)
    (fun _ => rfl) (fun i _ => hall i) (fun i _ => hfin i)
  exact ⟨h1.symm, fun i => (h2 i).symm⟩

end Config

end Async
