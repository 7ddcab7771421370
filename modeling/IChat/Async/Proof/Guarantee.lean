import IChat.Async.Proof.Footprint

/-!
# Guarantees

* `Keeps I R q`: while the store satisfies `I`, every write of the client keeps `I`, and it answers
  in `R`. If all clients keep `I`, a run does (`Config.keeps_run`).
* `Publishes p w S q`: the client writes `w` at `p` and answers in `S` only if it did. If no other
  client touches `p`, the value is there for good (`Config.run_published`).
-/

namespace Async

variable {σ π ν ρ ι : Type} [Mem σ π ν]

/-- The client keeps `I` and answers in `R`, given that the store has `I` whenever it moves. -/
inductive Keeps (I : σ → Prop) (R : ρ → Prop) : Prog π ν ρ → Prop
  | ret {r : ρ} (h : R r) : Keeps I R (.ret r)
  | stop : Keeps I R .stop
  | raise : Keeps I R .raise
  | read {p : π} {k : ν → Prog π ν ρ} (hk : ∀ s, I s → Keeps I R (k (Mem.get s p))) :
    Keeps I R (.read p k)
  | write {p : π} {v : ν} {k : Bool → Prog π ν ρ} (h : ∀ s, I s → I (Mem.set s p v))
    (hk : ∀ ok, Keeps I R (k ok)) : Keeps I R (.write p v k)

/-- A client that stays where writes do not affect `I`. -/
theorem Within.keeps {F : π → Prop} {I : σ → Prop} {R : ρ → Prop} {q : Prog π ν ρ}
    (h : Within F R q) (hF : ∀ s p v, F p → I s → I (Mem.set s p v)) : Keeps I R q := by
  induction h with
  | ret h => exact .ret h
  | stop => exact .stop
  | raise => exact .raise
  | read _ _ ih => exact .read fun s _ => ih _
  | write hp _ ih => exact .write (fun s hs => hF s _ _ hp hs) ih

theorem Keeps.map {I : σ → Prop} {R : ρ → Prop} {q : Prog π ν ρ} (h : Keeps I R q) {ρ' : Type}
    {g : ρ → ρ'} {R' : ρ' → Prop} (hg : ∀ r, R r → R' (g r)) : Keeps I R' (q.map g) := by
  induction h with
  | ret h => exact .ret (hg _ h)
  | stop => exact .stop
  | raise => exact .raise
  | read _ ih => exact .read ih
  | write h _ ih => exact .write h ih

theorem Keeps.answer {I : σ → Prop} {R : ρ → Prop} {r : ρ}
    (h : Keeps I R (.ret r : Prog π ν ρ)) : R r := by
  cases h with
  | ret h => exact h

theorem Keeps.step {I : σ → Prop} {R : ρ → Prop} {j : Job π ν ρ} (h : Keeps I R j.prog) {s : σ}
    (hs : I s) : I (j.step s).1 ∧ Keeps I R (j.step s).2.prog := by
  rcases j.step_cases s with ⟨-, he⟩ | ⟨p, k, hp, ⟨-, he⟩ | ⟨-, he⟩⟩ |
    ⟨p, v, k, hp, ⟨-, he⟩ | ⟨-, he⟩⟩ <;> rw [he]
  · exact ⟨hs, h⟩
  · rw [hp] at h
    cases h with
    | read hk => exact ⟨hs, hk s hs⟩
  · exact ⟨hs, .stop⟩
  · rw [hp] at h
    cases h with
    | write hw hk => exact ⟨hw s hs, hk true⟩
  · rw [hp] at h
    cases h with
    | write hw hk => exact ⟨hs, hk false⟩

section
variable (σ) (p : π) (w : ν) (S : ρ → Prop)

/-- The client writes `w` at `p`, at most once, and answers in `S` only if it did. -/
inductive Publishes : Prog π ν ρ → Prop
  | away {q : Prog π ν ρ} (h : Away σ p (fun r => ¬ S r) q) : Publishes q
  | read {q : π} {k : ν → Prog π ν ρ} (hk : ∀ v, Publishes (k v)) : Publishes (.read q k)
  | write {q : π} {v : ν} {k : Bool → Prog π ν ρ} (h : Mem.Apart σ q p)
    (hk : ∀ ok, Publishes (k ok)) : Publishes (.write q v k)
  | here {k : Bool → Prog π ν ρ} (h : Away σ p (fun _ => True) (k true))
    (h' : Away σ p (fun r => ¬ S r) (k false)) : Publishes (.write p w k)

end

section
variable {p : π} {w : ν} {S : ρ → Prop}

/-- One operation of the client: it is still to write `w`, or `w` is there. -/
theorem Publishes.step {j : Job π ν ρ} (h : Publishes σ p w S j.prog) (s : σ) :
    Publishes σ p w S (j.step s).2.prog ∨
      (Away σ p (fun _ => True) (j.step s).2.prog ∧ Mem.get (j.step s).1 p = Mem.norm σ w) := by
  obtain ⟨prog, fate, seen⟩ := j
  cases h with
  | away h => exact .inl (.away (h.step s))
  | read hk =>
    cases hf : fate.headD true <;> simp only [Job.step, hf, Bool.false_eq_true, ↓reduceIte]
    · exact .inl (.away .stop)
    · exact .inl (hk _)
  | write h hk =>
    cases hf : fate.headD true <;> simp only [Job.step, hf, Bool.false_eq_true, ↓reduceIte]
    · exact .inl (hk false)
    · exact .inl (hk true)
  | here h h' =>
    cases hf : fate.headD true <;> simp only [Job.step, hf, Bool.false_eq_true, ↓reduceIte]
    · exact .inl (.away h')
    · exact .inr ⟨h, Mem.get_set_self s p w⟩

end

namespace Config

variable [DecidableEq ι]

/-- **What all clients keep, every run keeps.** -/
theorem keeps_run {I : σ → Prop} {R : ι → ρ → Prop} {c : Config ι σ π ν ρ} (hI : I c.store)
    (h : ∀ i, Keeps I (R i) (c.jobs i).prog) (sched : List ι) :
    I (c.run sched).store ∧ ∀ i, Keeps I (R i) ((c.run sched).jobs i).prog := by
  refine run_inv (P := fun c => I c.store ∧ ∀ i, Keeps I (R i) (c.jobs i).prog)
    (fun c i ⟨hI, h⟩ => ?_) ⟨hI, h⟩ sched
  obtain ⟨h1, h2⟩ := (h i).step hI
  refine ⟨h1, fun j => ?_⟩
  by_cases hj : j = i
  · subst hj; rw [step_jobs_self]; exact h2
  · rw [step_jobs_ne hj]; exact h j

/-- **A value published where no other client writes stays**: if the client has answered in `S`,
its value is there. -/
theorem run_published {p : π} {w : ν} {S : ρ → Prop} {c : Config ι σ π ν ρ} {i : ι}
    (hi : Publishes σ p w S (c.jobs i).prog)
    (hj : ∀ j, j ≠ i → Away σ p (fun _ => True) (c.jobs j).prog) (sched : List ι) {r : ρ}
    (hr : ((c.run sched).jobs i).prog = .ret r) (hS : S r) :
    Mem.get (c.run sched).store p = Mem.norm σ w := by
  have hinv := run_inv (P := fun c : Config ι σ π ν ρ =>
      (Publishes σ p w S (c.jobs i).prog ∨
        (Away σ p (fun _ => True) (c.jobs i).prog ∧ Mem.get c.store p = Mem.norm σ w)) ∧
      ∀ j, j ≠ i → Away σ p (fun _ => True) (c.jobs j).prog)
    (fun c k ⟨hi, hj⟩ => ?_) ⟨.inl hi, hj⟩ sched
  · rcases hinv.1 with h | h
    · rw [hr] at h
      cases h with
      | away h => exact absurd hS h.answer
    · exact h.2
  · refine ⟨?_, fun j hne => ?_⟩
    · by_cases hk : k = i
      · subst hk
        rw [step_jobs_self, step_store]
        rcases hi with h | ⟨ha, hv⟩
        · exact h.step c.store
        · exact .inr ⟨ha.step c.store, (ha.get_step c.store).trans hv⟩
      · rw [step_jobs_ne (Ne.symm hk), step_store, (hj k hk).get_step]
        exact hi
    · by_cases hk : j = k
      · subst hk; rw [step_jobs_self]; exact (hj j hne).step c.store
      · rw [step_jobs_ne hk]; exact hj j hne

end Config

end Async
