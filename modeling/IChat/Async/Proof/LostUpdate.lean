import IChat.Async.Proof.Footprint
import Mathlib.Data.List.Nodup

/-!
# Lost updates

Clients update a shared location `p` without protection: each reads it, applies its own function
`f i` and writes the result (`Updates`), with other operations away from `p` before and after. Any
number of bystanders never touch `p`.

In every run the value at `p` is the initial value folded with the updates of a list `L` of clients
that have written (`Config.run_chain`): of the clients `W` that wrote, those outside `L` were
overwritten. Every write is fresh (`FreshRun`: the value read is still there) exactly when nothing
is lost, `L = W`.
-/

namespace Async

variable {σ π ν ρ ι : Type} [Mem σ π ν]

section
variable (σ) (p : π) (f : ν → ν) (S : ρ → Prop)

/-- The client has read `v` at `p`: it gives up, or writes `f v` there and leaves `p` alone. It
answers in `S` only after a write that succeeded. -/
def Pending (v : ν) (q : Prog π ν ρ) : Prop :=
  Away σ p (fun r => ¬ S r) q ∨
    ∃ k, q = .write p (f v) k ∧ Away σ p (fun _ => True) (k true) ∧
      Away σ p (fun r => ¬ S r) (k false)

/-- The client updates `p` at most once, by `f`, and answers in `S` only if it did. -/
inductive Updates : Prog π ν ρ → Prop
  | away {q : Prog π ν ρ} (h : Away σ p (fun r => ¬ S r) q) : Updates q
  | read {q : π} {k : ν → Prog π ν ρ} (h : Mem.Apart σ q p) (hk : ∀ v, Updates (k v)) :
    Updates (.read q k)
  | write {q : π} {v : ν} {k : Bool → Prog π ν ρ} (h : Mem.Apart σ q p)
    (hk : ∀ ok, Updates (k ok)) : Updates (.write q v k)
  | here {k : ν → Prog π ν ρ} (hk : ∀ v, Pending σ p f S v (k v)) : Updates (.read p k)

end

/-- The value `v` after the updates of `L`, in order. -/
def chain (σ : Type) [Mem σ π ν] (f : ι → ν → ν) (v : ν) (L : List ι) : ν :=
  L.foldl (fun v i => Mem.norm σ (f i v)) v

@[simp] theorem chain_nil (f : ι → ν → ν) (v : ν) : chain σ f v ([] : List ι) = v := rfl

theorem chain_concat (f : ι → ν → ν) (v : ν) (L : List ι) (i : ι) :
    chain σ f v (L ++ [i]) = Mem.norm σ (f i (chain σ f v L)) := by simp [chain]

/-! ## The invariant -/

section
variable (p : π) (f : ι → ν → ν) (S : ρ → Prop) (B : ι → Prop) (v0 : ν)

/-- What client `i` can be doing when `L` are the updates in the value `cur` at `p` and `W` the
clients that have written it: it has not read `p` yet, it has read a value with the updates `Li`
(stale if it has fewer than there were writes), it has written `p`, or it is a bystander. -/
inductive ClientOk (W : List ι) (cur : ν) (i : ι) (j : Job π ν ρ) : Prop
  | idle (hW : i ∉ W) (hB : ¬ B i) (h : Updates σ p (f i) S j.prog)
  | pending {Li : List ι} {k : Bool → Prog π ν ρ} (hW : i ∉ W) (hB : ¬ B i) (hnd : Li.Nodup)
    (hsub : Li ⊆ W) (hseen : j.seen = some (p, chain σ f v0 Li))
    (hprog : j.prog = .write p (f i (chain σ f v0 Li)) k)
    (hk : Away σ p (fun _ => True) (k true)) (hk' : Away σ p (fun r => ¬ S r) (k false))
    (hcur : Li.length = W.length → chain σ f v0 Li = cur)
  | wrote (hW : i ∈ W) (hB : ¬ B i) (h : Away σ p (fun _ => True) j.prog)
  | bystander (hW : i ∉ W) (hB : B i) (h : Away σ p (fun _ => True) j.prog)

/-- `L` are the updates in the value at `p`, `W` the clients that have written it, and `F` says
that every write so far was fresh. -/
structure ChainInv (c : Config ι σ π ν ρ) (F : Prop) (L W : List ι) : Prop where
  nodup : L.Nodup
  nodupW : W.Nodup
  sub : L ⊆ W
  last : L = [] → W = []
  value : Mem.get c.store p = chain σ f v0 L
  all : F → L = W
  fresh : L.length = W.length → F
  client : ∀ i, ClientOk (σ := σ) p f S B v0 W (Mem.get c.store p) i (c.jobs i)

end

section
variable {p : π} {f : ι → ν → ν} {S : ρ → Prop} {B : ι → Prop} {v0 : ν}

/-- A client that is not about to write `p` makes a fresh step. -/
theorem Config.fresh_of_ne {c : Config ι σ π ν ρ} {i : ι}
    (h : ∀ w k, (c.jobs i).prog ≠ .write p w k) : c.Fresh p i :=
  fun _ w k hp => absurd hp (h w k)

theorem Away.ne_write {R : ρ → Prop} {q : Prog π ν ρ} (h : Away σ p R q) (w : ν)
    (k : Bool → Prog π ν ρ) : q ≠ .write p w k := by
  rintro rfl
  cases h with
  | write h => exact Mem.apart_irrefl _ h

/-- One operation of a client that has not read `p`: it leaves `p` alone, and afterwards the client
has still not read `p` or holds the value there. -/
theorem Updates.step {g : ν → ν} {j : Job π ν ρ} (h : Updates σ p g S j.prog) (s : σ) :
    Mem.get (j.step s).1 p = Mem.get s p ∧ (∀ w k, j.prog ≠ .write p w k) ∧
      (Updates σ p g S (j.step s).2.prog ∨
        ((j.step s).2.seen = some (p, Mem.get s p) ∧
          Pending σ p g S (Mem.get s p) (j.step s).2.prog)) := by
  obtain ⟨prog, fate, seen⟩ := j
  cases h with
  | away h => exact ⟨h.get_step s, h.ne_write, .inl (.away (h.step s))⟩
  | read h hk =>
    refine ⟨?_, by simp, .inl ?_⟩ <;> cases hf : fate.headD true <;>
      simp only [Job.step, hf, Bool.false_eq_true, ↓reduceIte]
    · exact .away .stop
    · exact hk _
  | write h hk =>
    refine ⟨?_, fun w k he => ?_, .inl ?_⟩
    · cases hf : fate.headD true <;> simp only [Job.step, hf, Bool.false_eq_true, ↓reduceIte]
      exact Mem.get_set_apart s _ h
    · cases he; exact Mem.apart_irrefl _ h
    · cases hf : fate.headD true <;> simp only [Job.step, hf, Bool.false_eq_true, ↓reduceIte]
      · exact hk false
      · exact hk true
  | here hk =>
    cases hf : fate.headD true <;> simp only [Job.step, hf, Bool.false_eq_true, ↓reduceIte]
    · exact ⟨trivial, by simp, .inl (.away .stop)⟩
    · exact ⟨trivial, by simp, .inr ⟨trivial, hk _⟩⟩

/-- A client that holds a value with the updates `Li`. -/
theorem ClientOk.of_pending {W Li : List ι} {cur : ν} {i : ι} {j : Job π ν ρ} (hW : i ∉ W)
    (hB : ¬ B i) (hnd : Li.Nodup) (hsub : Li ⊆ W) (hseen : j.seen = some (p, chain σ f v0 Li))
    (hp : Pending σ p (f i) S (chain σ f v0 Li) j.prog)
    (hcur : Li.length = W.length → chain σ f v0 Li = cur) :
    ClientOk (σ := σ) p f S B v0 W cur i j := by
  rcases hp with h | ⟨k, hk, h1, h2⟩
  · exact .idle hW hB (.away h)
  · exact .pending hW hB hnd hsub hseen hk h1 h2 hcur

/-- A write by another client outdates what client `j` has read. -/
theorem ClientOk.after_write {W : List ι} {cur cur' : ν} {i j : ι} {q : Job π ν ρ} (hj : j ≠ i)
    (h : ClientOk (σ := σ) p f S B v0 W cur j q) :
    ClientOk (σ := σ) p f S B v0 (W ++ [i]) cur' j q := by
  have hnot : j ∉ W → j ∉ W ++ [i] := fun h => by simp [h, hj]
  cases h with
  | idle hW hB h => exact .idle (hnot hW) hB h
  | pending hW hB hnd hsub hseen hprog hk hk' _ =>
    refine .pending (hnot hW) hB hnd (List.Subset.trans hsub (List.subset_append_left W [i])) hseen
      hprog hk hk' fun hl => ?_
    have := hnd.length_le_of_subset hsub
    simp only [List.length_append, List.length_singleton] at hl
    omega
  | wrote hW hB h => exact .wrote (List.mem_append_left _ hW) hB h
  | bystander hW hB h => exact .bystander (hnot hW) hB h

theorem ChainInv.init {c : Config ι σ π ν ρ}
    (hU : ∀ i, ¬ B i → Updates σ p (f i) S (c.jobs i).prog)
    (hB : ∀ i, B i → Away σ p (fun _ => True) (c.jobs i).prog) :
    ChainInv p f S B (Mem.get c.store p) c True [] [] where
  nodup := .nil
  nodupW := .nil
  sub := fun _ h => h
  last _ := rfl
  value := rfl
  all _ := rfl
  fresh _ := trivial
  client i := by
    by_cases h : B i
    · exact .bystander List.not_mem_nil h (hB i h)
    · exact .idle List.not_mem_nil h (hU i h)

variable [DecidableEq ι]

/-- A step that leaves the value at `p` and writes nothing there keeps the invariant. -/
theorem ChainInv.keep {c : Config ι σ π ν ρ} {F : Prop} {L W : List ι}
    (h : ChainInv p f S B v0 c F L W) {i : ι}
    (hget : Mem.get (c.step i).store p = Mem.get c.store p) (hfresh : c.Fresh p i)
    (hi : ClientOk (σ := σ) p f S B v0 W (Mem.get c.store p) i ((c.jobs i).step c.store).2) :
    ChainInv p f S B v0 (c.step i) (F ∧ c.Fresh p i) L W where
  nodup := h.nodup
  nodupW := h.nodupW
  sub := h.sub
  last := h.last
  value := hget.trans h.value
  all hF := h.all hF.1
  fresh hl := ⟨h.fresh hl, hfresh⟩
  client j := by
    rw [hget]
    by_cases hj : j = i
    · subst hj; rw [Config.step_jobs_self]; exact hi
    · rw [Config.step_jobs_ne hj]; exact h.client j

/-- A write to `p` by a client that holds the updates `Li` extends the chain: after the current
value if that is what it holds, else after `Li`, losing the rest. -/
theorem ChainInv.write {c : Config ι σ π ν ρ} {F : Prop} {L W Li : List ι}
    (h : ChainInv p f S B v0 c F L W) {i : ι} {k : Bool → Prog π ν ρ} (hW : i ∉ W) (hB : ¬ B i)
    (hnd : Li.Nodup) (hsub : Li ⊆ W) (hseen : (c.jobs i).seen = some (p, chain σ f v0 Li))
    (hprog : (c.jobs i).prog = .write p (f i (chain σ f v0 Li)) k)
    (hk : Away σ p (fun _ => True) (k true)) (hf : (c.jobs i).fate.headD true = true)
    (hcur : Li.length = W.length → chain σ f v0 Li = Mem.get c.store p) :
    ∃ L' W', ChainInv p f S B v0 (c.step i) (F ∧ c.Fresh p i) L' W' := by
  have hstep : (c.jobs i).step c.store = (Mem.set c.store p (f i (chain σ f v0 Li)),
      ⟨k true, (c.jobs i).fate.tail, (c.jobs i).seen⟩) := by
    simp only [Job.step, hprog, hf, ↓reduceIte]
  have hget : Mem.get (c.step i).store p = chain σ f v0 (Li ++ [i]) := by
    rw [Config.step_store, hstep, Mem.get_set_self, chain_concat]
  have hclient : ∀ j, ClientOk (σ := σ) p f S B v0 (W ++ [i]) (Mem.get (c.step i).store p) j
      ((c.step i).jobs j) := by
    intro j
    by_cases hj : j = i
    · subst hj
      rw [Config.step_jobs_self, hstep]
      exact .wrote (by simp) hB hk
    · rw [Config.step_jobs_ne hj]
      exact (h.client j).after_write hj
  have hW' : (W ++ [i]).Nodup := List.nodup_append.2 ⟨h.nodupW, by simp, by
    rintro a ha b hb rfl; simp only [List.mem_singleton] at hb; exact hW (hb ▸ ha)⟩
  have hnodup : ∀ {M : List ι}, M.Nodup → M ⊆ W → (M ++ [i]).Nodup := fun hM hs =>
    List.nodup_append.2 ⟨hM, by simp, by
      rintro a ha b hb rfl; simp only [List.mem_singleton] at hb; exact hW (hs (hb ▸ ha))⟩
  have hsub' : ∀ {M : List ι}, M ⊆ W → M ++ [i] ⊆ W ++ [i] := fun hs =>
    List.append_subset.2 ⟨List.Subset.trans hs (List.subset_append_left W [i]), by simp⟩
  by_cases hv : chain σ f v0 Li = Mem.get c.store p
  · refine ⟨L ++ [i], W ++ [i], hnodup h.nodup h.sub, hW', hsub' h.sub, by simp, ?_, ?_, ?_,
      hclient⟩
    · rw [hget, chain_concat, chain_concat, hv, h.value]
    · rintro ⟨hF, -⟩; rw [h.all hF]
    · intro hl
      refine ⟨h.fresh (by simpa using hl), fun v w k' _ _ hs => ?_⟩
      rw [hseen] at hs; cases hs; exact hv.symm
  · refine ⟨Li ++ [i], W ++ [i], hnodup hnd hsub, hW', hsub' hsub, by simp, hget, ?_, ?_,
      hclient⟩
    · rintro ⟨-, hfr⟩; exact absurd (hfr _ _ _ hprog hf hseen).symm hv
    · intro hl; exact absurd (hcur (by simpa using hl)) hv

/-- **Step lemma**: every operation keeps the invariant. -/
theorem ChainInv.step {c : Config ι σ π ν ρ} {F : Prop} {L W : List ι}
    (h : ChainInv p f S B v0 c F L W) (i : ι) :
    ∃ L' W', ChainInv p f S B v0 (c.step i) (F ∧ c.Fresh p i) L' W' := by
  cases h.client i with
  | idle hW hB hU =>
    obtain ⟨hget, hne, hnext⟩ := hU.step c.store
    refine ⟨L, W, h.keep hget (Config.fresh_of_ne hne) ?_⟩
    rcases hnext with hU | ⟨hseen, hp⟩
    · exact .idle hW hB hU
    · rw [h.value] at hseen hp
      exact .of_pending hW hB h.nodup h.sub hseen hp fun _ => h.value.symm
  | @pending Li k hW hB hnd hsub hseen hprog hk hk' hcur =>
    cases hf : (c.jobs i).fate.headD true with
    | true => exact h.write hW hB hnd hsub hseen hprog hk hf hcur
    | false =>
      have hstep : (c.jobs i).step c.store =
          (c.store, ⟨k false, (c.jobs i).fate.tail, (c.jobs i).seen⟩) := by
        simp only [Job.step, hprog, hf, Bool.false_eq_true, ↓reduceIte]
      refine ⟨L, W, h.keep (by rw [Config.step_store, hstep]) (fun _ _ _ _ hf' _ => ?_) ?_⟩
      · rw [hf] at hf'; cases hf'
      · rw [hstep]; exact .idle hW hB (.away hk')
  | wrote hW hB ha =>
    exact ⟨L, W, h.keep (ha.get_step _) (Config.fresh_of_ne ha.ne_write)
      (.wrote hW hB (ha.step _))⟩
  | bystander hW hB ha =>
    exact ⟨L, W, h.keep (ha.get_step _) (Config.fresh_of_ne ha.ne_write)
      (.bystander hW hB (ha.step _))⟩

theorem ChainInv.run {c : Config ι σ π ν ρ} {F : Prop} {L W : List ι}
    (h : ChainInv p f S B v0 c F L W) (sched : List ι) :
    ∃ L' W', ChainInv p f S B v0 (c.run sched) (F ∧ c.FreshRun p sched) L' W' := by
  induction sched generalizing c F L W with
  | nil => exact ⟨L, W, by simpa [Config.FreshRun] using h⟩
  | cons i sched ih =>
    obtain ⟨L', W', h'⟩ := h.step i
    obtain ⟨L2, W2, h2⟩ := ih h'
    exact ⟨L2, W2, by simpa only [Config.run_cons, Config.FreshRun, and_assoc] using h2⟩

/-- **The value after any run**: the initial value with the updates of `L`, in order. `W` are the
clients that wrote; a client that answered in `S` is one. All writes were fresh exactly when
`L = W`. -/
theorem Config.run_chain {c : Config ι σ π ν ρ}
    (hU : ∀ i, ¬ B i → Updates σ p (f i) S (c.jobs i).prog)
    (hB : ∀ i, B i → Away σ p (fun _ => True) (c.jobs i).prog) (sched : List ι) :
    ∃ L W : List ι, L.Nodup ∧ W.Nodup ∧ L ⊆ W ∧ (L = [] → W = []) ∧ (∀ i ∈ W, ¬ B i) ∧
      (∀ i r, ¬ B i → ((c.run sched).jobs i).prog = .ret r → S r → i ∈ W) ∧
      Mem.get (c.run sched).store p = chain σ f (Mem.get c.store p) L ∧
      (c.FreshRun p sched → L = W) ∧ (L.length = W.length → c.FreshRun p sched) := by
  obtain ⟨L, W, h⟩ := (ChainInv.init hU hB).run sched
  refine ⟨L, W, h.nodup, h.nodupW, h.sub, h.last, fun i hi => ?_, fun i r hBi hr hS => ?_, h.value,
    fun hF => h.all ⟨trivial, hF⟩, fun hl => (h.fresh hl).2⟩
  · cases h.client i with
    | idle hW => exact absurd hi hW
    | pending hW => exact absurd hi hW
    | wrote _ hB => exact hB
    | bystander hW => exact absurd hi hW
  · cases h.client i with
    | idle _ _ hU =>
      rw [hr] at hU
      cases hU with
      | away h => exact absurd hS h.answer
    | pending _ _ _ _ _ hprog => rw [hr] at hprog; cases hprog
    | wrote hW => exact hW
    | bystander _ hB => exact absurd hB hBi

end

end Async
