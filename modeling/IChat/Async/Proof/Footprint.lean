import IChat.Async.Prog

/-!
# Footprints

`Within F R q`: every operation the client `q` may ever issue is at a location in `F`, and every
answer it may give is in `R`. An operation keeps it (`Within.step`), so a client whose locations
are all apart from `p` never changes what is stored at `p` (`Away.get_step`).
`Issues R W q` also says what the client writes.
-/

namespace Async

variable {σ π ν ρ ι : Type}

/-- The client stays at locations `F` and answers in `R`. -/
inductive Within (F : π → Prop) (R : ρ → Prop) : Prog π ν ρ → Prop
  | ret {r : ρ} (h : R r) : Within F R (.ret r)
  | stop : Within F R .stop
  | raise : Within F R .raise
  | read {p : π} {k : ν → Prog π ν ρ} (h : F p) (hk : ∀ v, Within F R (k v)) : Within F R (.read p k)
  | write {p : π} {v : ν} {k : Bool → Prog π ν ρ} (h : F p) (hk : ∀ ok, Within F R (k ok)) :
    Within F R (.write p v k)

theorem Within.mono {F F' : π → Prop} {R R' : ρ → Prop} {q : Prog π ν ρ} (h : Within F R q)
    (hF : ∀ p, F p → F' p) (hR : ∀ r, R r → R' r) : Within F' R' q := by
  induction h with
  | ret h => exact .ret (hR _ h)
  | stop => exact .stop
  | raise => exact .raise
  | read h _ ih => exact .read (hF _ h) ih
  | write h _ ih => exact .write (hF _ h) ih

theorem Within.map {F : π → Prop} {R : ρ → Prop} {q : Prog π ν ρ} (h : Within F R q) {ρ' : Type}
    {g : ρ → ρ'} {R' : ρ' → Prop} (hg : ∀ r, R r → R' (g r)) : Within F R' (q.map g) := by
  induction h with
  | ret h => exact .ret (hg _ h)
  | stop => exact .stop
  | raise => exact .raise
  | read h _ ih => exact .read h ih
  | write h _ ih => exact .write h ih

theorem Within.answer {F : π → Prop} {R : ρ → Prop} {r : ρ}
    (h : Within F R (.ret r : Prog π ν ρ)) : R r := by
  cases h with
  | ret h => exact h

/-- The client reads only at `R`, and writes only what `W` allows where it allows it. -/
inductive Issues (R : π → Prop) (W : π → ν → Prop) : Prog π ν ρ → Prop
  | ret {r : ρ} : Issues R W (.ret r)
  | stop : Issues R W .stop
  | raise : Issues R W .raise
  | read {p : π} {k : ν → Prog π ν ρ} (h : R p) (hk : ∀ v, Issues R W (k v)) :
    Issues R W (.read p k)
  | write {p : π} {v : ν} {k : Bool → Prog π ν ρ} (h : W p v) (hk : ∀ ok, Issues R W (k ok)) :
    Issues R W (.write p v k)

variable [Mem σ π ν]

/-- The client never touches a location that meets `p`. -/
def Away (σ : Type) [Mem σ π ν] (p : π) (R : ρ → Prop) (q : Prog π ν ρ) : Prop :=
  Within (fun p' => Mem.Apart σ p' p) R q

/-- An operation stays in the footprint. -/
theorem Within.step {F : π → Prop} {R : ρ → Prop} {j : Job π ν ρ} (h : Within F R j.prog) (s : σ) :
    Within F R (j.step s).2.prog := by
  rcases j.step_cases s with ⟨-, he⟩ | ⟨p, k, hp, ⟨-, he⟩ | ⟨-, he⟩⟩ |
    ⟨p, v, k, hp, ⟨-, he⟩ | ⟨-, he⟩⟩ <;> rw [he]
  · exact h
  · rw [hp] at h
    cases h with
    | read _ hk => exact hk _
  · exact .stop
  · rw [hp] at h
    cases h with
    | write _ hk => exact hk _
  · rw [hp] at h
    cases h with
    | write _ hk => exact hk _

/-- An operation away from `p` leaves the value at `p`. -/
theorem Away.get_step {p : π} {R : ρ → Prop} {j : Job π ν ρ} (h : Away σ p R j.prog) (s : σ) :
    Mem.get (j.step s).1 p = Mem.get s p := by
  rcases j.step_cases s with ⟨-, he⟩ | ⟨q, k, hq, ⟨-, he⟩ | ⟨-, he⟩⟩ |
    ⟨q, v, k, hq, ⟨-, he⟩ | ⟨-, he⟩⟩ <;> rw [he]
  unfold Away at h
  rw [hq] at h
  cases h with
  | write ha _ => exact Mem.get_set_apart s v ha

namespace Config

variable [DecidableEq ι]

theorem within_step {F : ι → π → Prop} {R : ι → ρ → Prop} {c : Config ι σ π ν ρ}
    (h : ∀ i, Within (F i) (R i) (c.jobs i).prog) (i : ι) :
    ∀ j, Within (F j) (R j) ((c.step i).jobs j).prog := by
  intro j
  by_cases hj : j = i
  · subst hj
    rw [step_jobs_self]
    exact (h j).step c.store
  · rw [step_jobs_ne hj]
    exact h j

theorem within_run {F : ι → π → Prop} {R : ι → ρ → Prop} {c : Config ι σ π ν ρ}
    (h : ∀ i, Within (F i) (R i) (c.jobs i).prog) (sched : List ι) :
    ∀ j, Within (F j) (R j) ((c.run sched).jobs j).prog :=
  run_inv (P := fun c => ∀ i, Within (F i) (R i) (c.jobs i).prog)
    (fun _ i hc => within_step hc i) h sched

/-- A client away from `p` never changes what is stored there, whatever the other clients did. -/
theorem away_run_step {c : Config ι σ π ν ρ} {i : ι} {p : π} {R : ρ → Prop}
    (h : Away σ p R (c.jobs i).prog) (sched : List ι) :
    Mem.get ((c.run sched).step i).store p = Mem.get (c.run sched).store p := by
  have hrun : Away σ p R ((c.run sched).jobs i).prog := by
    refine run_inv (P := fun c => Away σ p R (c.jobs i).prog) (fun c j hc => ?_) h sched
    by_cases hj : j = i
    · subst hj
      rw [step_jobs_self]
      exact hc.step c.store
    · rw [step_jobs_ne (Ne.symm hj)]
      exact hc
  exact hrun.get_step _

end Config

end Async
