import Mathlib.Logic.Function.Basic

/-!
# Programs of atomic reads and writes

A client of a remote store issues one operation at a time and continues in its callback. `Prog` is
such a client: a read passes the value to its continuation, a write passes whether it succeeded.
`exec` runs one client alone. `Config` holds a store and any number of clients (`Job`s); a schedule
says whose operation happens next (`run`), so the schedules are the interleavings.

Which operations succeed is fixed per client by its `fate`, one flag for each operation it issues;
operations past its end succeed. A read that fails is cancelled: the client never continues.
-/

namespace Async

/-- A store of values at locations. Writing `v` leaves `norm v` to read; writes and reads at
locations apart do not meet. -/
class Mem (σ : Type) (π ν : outParam Type) where
  get : σ → π → ν
  set : σ → π → ν → σ
  norm : ν → ν
  Apart : π → π → Prop
  apart_irrefl : ∀ p, ¬ Apart p p
  apart_symm : ∀ {p q}, Apart p q → Apart q p
  get_set_self : ∀ s p v, get (set s p v) p = norm v
  get_set_apart : ∀ s v {p q}, Apart p q → get (set s p v) q = get s q
  set_comm : ∀ s v w {p q}, Apart p q → set (set s p v) q w = set (set s q w) p v

/-- A client: answered with `r`, silent for ever, aborted by an exception, or at an operation. -/
inductive Prog (π ν ρ : Type) where
  | ret (r : ρ)
  | stop
  | raise
  | read (p : π) (k : ν → Prog π ν ρ)
  | write (p : π) (v : ν) (k : Bool → Prog π ν ρ)

variable {σ π ν ρ ι : Type}

/-- No operation is pending. -/
def Prog.Finished : Prog π ν ρ → Prop
  | .read .. | .write .. => False
  | _ => True

/-- What the client has answered. -/
def Prog.answer : Prog π ν ρ → Option ρ
  | .ret r => some r
  | _ => none

theorem Prog.answer_eq_some {q : Prog π ν ρ} {r : ρ} : q.answer = some r ↔ q = .ret r := by
  cases q <;> simp [answer]

theorem Prog.finished_of_answer {q : Prog π ν ρ} {r : ρ} (h : q.answer = some r) : q.Finished := by
  rw [Prog.answer_eq_some.1 h]; trivial

/-- The client with its answers mapped. -/
def Prog.map {ρ' : Type} (g : ρ → ρ') : Prog π ν ρ → Prog π ν ρ'
  | .ret r => .ret (g r)
  | .stop => .stop
  | .raise => .raise
  | .read p k => .read p fun v => (k v).map g
  | .write p v k => .write p v fun ok => (k ok).map g

variable [Mem σ π ν]

/-- The client run alone: the store after it, and the client when no operation is pending. -/
def exec : Prog π ν ρ → σ → List Bool → σ × Prog π ν ρ
  | .read p k, s, o => if o.headD true then exec (k (Mem.get s p)) s o.tail else (s, .stop)
  | .write p v k, s, o =>
    if o.headD true then exec (k true) (Mem.set s p v) o.tail else exec (k false) s o.tail
  | q, s, _ => (s, q)

/-- A running client: what is left of it, the flags of its remaining operations, and the location
and value of its last read. -/
structure Job (π ν ρ : Type) where
  prog : Prog π ν ρ
  fate : List Bool := []
  seen : Option (π × ν) := none

/-- One operation of a client. -/
def Job.step (s : σ) (j : Job π ν ρ) : σ × Job π ν ρ :=
  match j.prog with
  | .read p k =>
    if j.fate.headD true then (s, ⟨k (Mem.get s p), j.fate.tail, some (p, Mem.get s p)⟩)
    else (s, ⟨.stop, j.fate.tail, j.seen⟩)
  | .write p v k =>
    if j.fate.headD true then (Mem.set s p v, ⟨k true, j.fate.tail, j.seen⟩)
    else (s, ⟨k false, j.fate.tail, j.seen⟩)
  | _ => (s, j)

/-- A store shared by clients `ι`. -/
structure Config (ι σ π ν ρ : Type) where
  store : σ
  jobs : ι → Job π ν ρ

namespace Config

variable [DecidableEq ι]

/-- Client `i` takes its next operation. -/
def step (c : Config ι σ π ν ρ) (i : ι) : Config ι σ π ν ρ :=
  let r := (c.jobs i).step c.store
  ⟨r.1, Function.update c.jobs i r.2⟩

/-- The clients take operations in the order of the schedule. -/
def run (c : Config ι σ π ν ρ) (sched : List ι) : Config ι σ π ν ρ := sched.foldl step c

/-- If client `i` is about to write `p`, which it read last, the value it read is still there. -/
def Fresh (c : Config ι σ π ν ρ) (p : π) (i : ι) : Prop :=
  ∀ v w k, (c.jobs i).prog = .write p w k → (c.jobs i).fate.headD true = true →
    (c.jobs i).seen = some (p, v) → Mem.get c.store p = v

/-- Every write to `p` in the run is fresh. -/
def FreshRun (c : Config ι σ π ν ρ) (p : π) : List ι → Prop
  | [] => True
  | i :: sched => c.Fresh p i ∧ (c.step i).FreshRun p sched

@[simp] theorem run_nil (c : Config ι σ π ν ρ) : c.run [] = c := rfl

theorem run_cons (c : Config ι σ π ν ρ) (i : ι) (sched : List ι) :
    c.run (i :: sched) = (c.step i).run sched := rfl

theorem run_append (c : Config ι σ π ν ρ) (a b : List ι) : c.run (a ++ b) = (c.run a).run b :=
  List.foldl_append ..

theorem step_jobs_self (c : Config ι σ π ν ρ) (i : ι) :
    (c.step i).jobs i = ((c.jobs i).step c.store).2 := Function.update_self ..

theorem step_jobs_ne {i j : ι} (h : j ≠ i) (c : Config ι σ π ν ρ) :
    (c.step i).jobs j = c.jobs j := Function.update_of_ne h ..

theorem step_store (c : Config ι σ π ν ρ) (i : ι) :
    (c.step i).store = ((c.jobs i).step c.store).1 := rfl

/-- **Invariant rule**: what every operation keeps, a run keeps. -/
theorem run_inv {P : Config ι σ π ν ρ → Prop} (hstep : ∀ c i, P c → P (c.step i))
    {c : Config ι σ π ν ρ} (h : P c) (sched : List ι) : P (c.run sched) := by
  induction sched generalizing c with
  | nil => exact h
  | cons i sched ih => exact ih (hstep c i h)

end Config

/-- What one operation of a client can do. -/
theorem Job.step_cases (s : σ) (j : Job π ν ρ) :
    (j.prog.Finished ∧ j.step s = (s, j)) ∨
    (∃ p k, j.prog = .read p k ∧
      ((j.fate.headD true = true ∧
          j.step s = (s, ⟨k (Mem.get s p), j.fate.tail, some (p, Mem.get s p)⟩)) ∨
        (j.fate.headD true = false ∧ j.step s = (s, ⟨.stop, j.fate.tail, j.seen⟩)))) ∨
    (∃ p v k, j.prog = .write p v k ∧
      ((j.fate.headD true = true ∧ j.step s = (Mem.set s p v, ⟨k true, j.fate.tail, j.seen⟩)) ∨
        (j.fate.headD true = false ∧ j.step s = (s, ⟨k false, j.fate.tail, j.seen⟩)))) := by
  obtain ⟨prog, fate, seen⟩ := j
  cases prog with
  | ret r => exact .inl ⟨trivial, rfl⟩
  | stop => exact .inl ⟨trivial, rfl⟩
  | raise => exact .inl ⟨trivial, rfl⟩
  | read p k =>
    refine .inr (.inl ⟨p, k, rfl, ?_⟩)
    cases hf : fate.headD true
    · exact .inr ⟨rfl, by simp only [step, hf, Bool.false_eq_true, ↓reduceIte]⟩
    · exact .inl ⟨rfl, by simp only [step, hf, ↓reduceIte]⟩
  | write p v k =>
    refine .inr (.inr ⟨p, v, k, rfl, ?_⟩)
    cases hf : fate.headD true
    · exact .inr ⟨rfl, by simp only [step, hf, Bool.false_eq_true, ↓reduceIte]⟩
    · exact .inl ⟨rfl, by simp only [step, hf, ↓reduceIte]⟩

/-! ## Running alone -/

theorem exec_finished {q : Prog π ν ρ} (h : q.Finished) (s : σ) (o : List Bool) :
    exec q s o = (s, q) := by
  cases q <;> first | rfl | exact h.elim

/-- An operation of a client leaves the result of running it to the end unchanged. -/
theorem exec_step (s : σ) (j : Job π ν ρ) :
    exec (j.step s).2.prog (j.step s).1 (j.step s).2.fate = exec j.prog s j.fate := by
  rcases j.step_cases s with ⟨-, h⟩ | ⟨p, k, hp, ⟨hf, h⟩ | ⟨hf, h⟩⟩ |
    ⟨p, v, k, hp, ⟨hf, h⟩ | ⟨hf, h⟩⟩ <;> rw [h]
  · simp only [hp, exec, hf, ↓reduceIte]
  · simp only [hp, exec, hf, Bool.false_eq_true, ↓reduceIte]
  · simp only [hp, exec, hf, ↓reduceIte]
  · simp only [hp, exec, hf, Bool.false_eq_true, ↓reduceIte]

/-! ## One after the other -/

/-- A client that ran alone: what it was called with, which operations succeeded, how it ended. -/
structure Done (α π ν ρ : Type) where
  arg : α
  fate : List Bool
  outcome : Prog π ν ρ

/-- Calls that run one after the other. -/
inductive InTurn {α : Type} (call : α → Prog π ν ρ) : σ → List (Done α π ν ρ) → σ → Prop
  | nil (s : σ) : InTurn call s [] s
  | cons {s s' s'' : σ} {d : Done α π ν ρ} {ds : List (Done α π ν ρ)}
    (hd : exec (call d.arg) s d.fate = (s', d.outcome)) (hds : InTurn call s' ds s'') :
    InTurn call s (d :: ds) s''

/-- **Invariant rule** for calls in turn, where the invariant may speak of the calls so far. -/
theorem InTurn.inv {α : Type} {call : α → Prog π ν ρ} {s s' : σ} {hist : List (Done α π ν ρ)}
    (h : InTurn call s hist s') {P : List (Done α π ν ρ) → σ → Prop} (h0 : P [] s)
    (hstep : ∀ ds d rest s s', hist = ds ++ d :: rest → P ds s →
      exec (call d.arg) s d.fate = (s', d.outcome) → P (ds ++ [d]) s') : P hist s' := by
  have key : ∀ {s s' rest}, InTurn call s rest s' → ∀ ds, hist = ds ++ rest → P ds s →
      P hist s' := by
    intro s s' rest hrest
    induction hrest with
    | nil s => intro ds he hP; rw [he, List.append_nil]; exact hP
    | @cons s s1 s2 d rest hd _ ih =>
      intro ds he hP
      exact ih (ds ++ [d]) (by rw [he, List.append_assoc]; rfl) (hstep ds d rest s s1 he hP hd)
  exact key h [] rfl h0

/-- Every call of the run meets `C` in the state it starts in. -/
def MeetsInTurn {α : Type} (call : α → Prog π ν ρ) (C : σ → α → Prop) :
    σ → List (Done α π ν ρ) → Prop
  | _, [] => True
  | s, d :: ds => C s d.arg ∧ MeetsInTurn call C (exec (call d.arg) s d.fate).1 ds

/-- **Invariant rule** for calls in turn that meet a condition. -/
theorem InTurn.inv_meets {α : Type} {call : α → Prog π ν ρ} {s s' : σ}
    {hist : List (Done α π ν ρ)} (h : InTurn call s hist s') {C : σ → α → Prop} {I : σ → Prop}
    (hmeets : MeetsInTurn call C s hist) (h0 : I s)
    (hstep : ∀ s s' (d : Done α π ν ρ), I s → C s d.arg →
      exec (call d.arg) s d.fate = (s', d.outcome) → I s') :
    I s' := by
  induction h with
  | nil s => exact h0
  | @cons s s₁ s₂ d ds hd _ ih =>
    obtain ⟨hC, hrest⟩ := hmeets
    rw [hd] at hrest
    exact ih hrest (hstep s s₁ d h0 hC hd)

end Async
