import Mathlib.Data.List.Infix

/-!
# Machines driven by events

A machine takes one step for each event. A step that answers `none` ends the process: no event is
taken after it. `run` is the state after a list of events. An invariant of a run may speak of the
events so far and may assume a condition on the steps taken (`Meets`).
-/

namespace Machine

variable {S E : Type} (step : S → E → Option S)

/-- The state after the events, if the process is still there. -/
def run : S → List E → Option S
  | s, [] => some s
  | s, e :: es => (step s e).bind fun s' => run s' es

/-- Every state of the run has `P`, the first one included. -/
def Always (P : S → Prop) : S → List E → Prop
  | s, [] => P s
  | s, e :: es => P s ∧ ∀ s', step s e = some s' → Always P s' es

/-- Every step of the run meets `C`. -/
def Meets (C : S → E → Prop) : S → List E → Prop
  | _, [] => True
  | s, e :: es => C s e ∧ ∀ s', step s e = some s' → Meets C s' es

variable {step}

@[simp] theorem run_nil (s : S) : run step s [] = some s := rfl

theorem run_cons (s : S) (e : E) (es : List E) :
    run step s (e :: es) = (step s e).bind fun s' => run step s' es := rfl

theorem run_append (s : S) (es es' : List E) :
    run step s (es ++ es') = (run step s es).bind fun s' => run step s' es' := by
  induction es generalizing s with
  | nil => rfl
  | cons e es ih =>
    rw [List.cons_append, run_cons, run_cons, Option.bind_assoc]
    exact congrArg _ (funext fun s' => ih s')

theorem meets_cons {C : S → E → Prop} {s s' : S} {e : E} {es : List E} (he : C s e)
    (hs : step s e = some s') (hes : Meets step C s' es) : Meets step C s (e :: es) :=
  ⟨he, fun s'' hs'' => by rw [hs] at hs''; cases hs''; exact hes⟩

theorem meets_concat {C : S → E → Prop} {s s' : S} {es : List E} {e : E}
    (hes : Meets step C s es) (hrun : run step s es = some s') (he : C s' e) :
    Meets step C s (es ++ [e]) := by
  induction es generalizing s with
  | nil =>
    cases hrun
    exact ⟨he, fun _ _ => trivial⟩
  | cons e' es ih =>
    obtain ⟨s₁, hs₁, hrun⟩ := Option.bind_eq_some_iff.1 hrun
    exact meets_cons hes.1 hs₁ (ih (hes.2 s₁ hs₁) hrun)

theorem meets_of_mem {C : S → E → Prop} {es : List E} (h : ∀ e ∈ es, ∀ s, C s e) (s : S) :
    Meets step C s es := by
  induction es generalizing s with
  | nil => trivial
  | cons e es ih => exact ⟨h e (.head _) s, fun s' _ => ih (fun e' he => h e' (.tail _ he)) s'⟩

theorem meets_append {C : S → E → Prop} {s : S} {es es' : List E}
    (h : Meets step C s (es ++ es')) :
    Meets step C s es ∧ ∀ s', run step s es = some s' → Meets step C s' es' := by
  induction es generalizing s with
  | nil => exact ⟨trivial, fun s' hs' => by cases hs'; exact h⟩
  | cons e es ih =>
    refine ⟨⟨h.1, fun s' hs' => (ih (h.2 s' hs')).1⟩, fun s'' hs'' => ?_⟩
    rw [run_cons] at hs''
    obtain ⟨s', hs', hrun⟩ := Option.bind_eq_some_iff.1 hs''
    exact (ih (h.2 s' hs')).2 s'' hrun

theorem Always.head {P : S → Prop} {s : S} {es : List E} (h : Always step P s es) : P s := by
  cases es with
  | nil => exact h
  | cons e es => exact h.1

/-- What holds all along a run holds after each of its beginnings. -/
theorem always_iff_prefix {P : S → Prop} {s : S} {es : List E} :
    Always step P s es ↔ ∀ pre post s', es = pre ++ post → run step s pre = some s' → P s' := by
  induction es generalizing s with
  | nil =>
    constructor
    · intro h pre post s' he hs'
      obtain ⟨rfl, -⟩ := List.append_eq_nil_iff.1 he.symm
      cases hs'
      exact h
    · intro h
      exact h [] [] s rfl rfl
  | cons e es ih =>
    constructor
    · intro h pre post s' he hs'
      cases pre with
      | nil => cases hs'; exact h.1
      | cons e' pre =>
        cases he
        rw [run_cons] at hs'
        obtain ⟨s₁, hs₁, hrun⟩ := Option.bind_eq_some_iff.1 hs'
        exact ih.1 (h.2 s₁ hs₁) pre post s' rfl hrun
    · intro h
      refine ⟨h [] _ s rfl rfl, fun s₁ hs₁ => ih.2 fun pre post s' he hrun => ?_⟩
      refine h (e :: pre) post s' (by rw [he]; rfl) ?_
      rw [run_cons, hs₁]
      exact hrun

/-- **Invariant rule**: what every step that meets `C` keeps, a run of such steps keeps. -/
theorem run_inv {C : S → E → Prop} {I : List E → S → Prop} {s s' : S} {es : List E}
    (hrun : run step s es = some s') (hmeets : Meets step C s es) (h0 : I [] s)
    (hstep : ∀ es e s₁ s₂, run step s es = some s₁ → I es s₁ → C s₁ e → step s₁ e = some s₂ →
      I (es ++ [e]) s₂) : I es s' := by
  induction es using List.reverseRecOn generalizing s' with
  | nil => cases hrun; exact h0
  | append_singleton es e ih =>
    rw [run_append] at hrun
    obtain ⟨s₁, hs₁, hlast⟩ := Option.bind_eq_some_iff.1 hrun
    obtain ⟨s₂, hs₂, hnil⟩ := Option.bind_eq_some_iff.1 hlast
    cases hnil
    obtain ⟨hpre, hpost⟩ := meets_append hmeets
    exact hstep es e s₁ s' hs₁ (ih hs₁ hpre) (hpost s₁ hs₁).1 hs₂

/-- **State rule**: what the steps for the events of a run keep, the run keeps. -/
theorem run_keeps {I : S → Prop} {s s' : S} {es : List E} (hrun : run step s es = some s')
    (h0 : I s) (hstep : ∀ e ∈ es, ∀ s₁ s₂, I s₁ → step s₁ e = some s₂ → I s₂) : I s' :=
  run_inv (I := fun _ s => I s) hrun (meets_of_mem (C := fun _ e => e ∈ es) (fun _ he _ => he) s) h0
    fun _ e s₁ s₂ _ hI he hs => hstep e he s₁ s₂ hI hs

/-- **Progress rule**: an invariant whose states take every step is kept by every run. -/
theorem run_total {I : S → Prop} {s : S} (hI : I s)
    (hstep : ∀ s e, I s → ∃ s', step s e = some s' ∧ I s') (es : List E) :
    ∃ s', run step s es = some s' ∧ I s' := by
  induction es generalizing s with
  | nil => exact ⟨s, rfl, hI⟩
  | cons e es ih =>
    obtain ⟨s₁, hs₁, hI₁⟩ := hstep s e hI
    obtain ⟨s', hrun, hI'⟩ := ih hI₁
    exact ⟨s', by rw [run_cons, hs₁]; exact hrun, hI'⟩

/-- The same for the steps that the events of a run ask for. -/
theorem run_total_of_mem {I : S → Prop} {s : S} {es : List E} (hI : I s)
    (hstep : ∀ e ∈ es, ∀ s, I s → ∃ s', step s e = some s' ∧ I s') :
    ∃ s', run step s es = some s' ∧ I s' := by
  induction es generalizing s with
  | nil => exact ⟨s, rfl, hI⟩
  | cons e es ih =>
    obtain ⟨s₁, hs₁, hI₁⟩ := hstep e (.head _) s hI
    obtain ⟨s', hrun, hI'⟩ := ih hI₁ fun e' he => hstep e' (.tail _ he)
    exact ⟨s', by rw [run_cons, hs₁]; exact hrun, hI'⟩

/-- **Equivalence rule**: if a step that meets `C`, and no other, keeps `P`, then so do runs. -/
theorem run_iff {P : S → Prop} {C : S → E → Prop} {s s' : S} {es : List E}
    (hrun : run step s es = some s')
    (hstep : ∀ s e s', step s e = some s' → (P s' ↔ P s ∧ C s e)) :
    P s' ↔ P s ∧ Meets step C s es := by
  induction es generalizing s with
  | nil => cases hrun; exact (and_iff_left trivial).symm
  | cons e es ih =>
    rw [run_cons] at hrun
    obtain ⟨s₁, hs₁, hrun⟩ := Option.bind_eq_some_iff.1 hrun
    rw [ih hrun, hstep s e s₁ hs₁]
    constructor
    · rintro ⟨⟨hP, hC⟩, hes⟩
      exact ⟨hP, meets_cons hC hs₁ hes⟩
    · rintro ⟨hP, hC, hes⟩
      exact ⟨⟨hP, hC⟩, hes s₁ hs₁⟩

/-- What every step that meets `C` keeps holds all along a run of such steps. -/
theorem always_of_meets {P : S → Prop} {C : S → E → Prop} {s : S} {es : List E} (hP : P s)
    (hstep : ∀ e ∈ es, ∀ s s', P s → C s e → step s e = some s' → P s')
    (hmeets : Meets step C s es) : Always step P s es := by
  induction es generalizing s with
  | nil => exact hP
  | cons e es ih =>
    refine ⟨hP, fun s' hs' => ?_⟩
    exact ih (hstep e (.head _) s s' hP hmeets.1 hs') (fun e' he' => hstep e' (.tail _ he'))
      (hmeets.2 s' hs')

/-- **Exactness rule**: if, among states with the invariant `I`, the steps that meet `C` are those
that keep `P`, then `P` holds all along exactly the runs whose steps meet `C`. -/
theorem always_iff_meets {I P : S → Prop} {C : S → E → Prop} {s : S} {es : List E} (hI : I s)
    (hP : P s) (hkeeps : ∀ e ∈ es, ∀ s s', I s → step s e = some s' → I s')
    (hstep : ∀ e ∈ es, ∀ s, I s → P s → (C s e ↔ ∀ s', step s e = some s' → P s')) :
    Always step P s es ↔ Meets step C s es := by
  induction es generalizing s with
  | nil => exact iff_of_true hP trivial
  | cons e es ih =>
    have hC := hstep e (.head _) s hI hP
    have hrest : ∀ s', step s e = some s' → P s' →
        (Always step P s' es ↔ Meets step C s' es) := fun s' hs' hP' =>
      ih (hkeeps e (.head _) s s' hI hs') hP' (fun e' he' => hkeeps e' (.tail _ he'))
        fun e' he' => hstep e' (.tail _ he')
    constructor
    · intro h
      exact ⟨hC.2 fun s' hs' => (h.2 s' hs').head,
        fun s' hs' => (hrest s' hs' (h.2 s' hs').head).1 (h.2 s' hs')⟩
    · intro h
      exact ⟨hP, fun s' hs' => (hrest s' hs' (hC.1 h.1 s' hs')).2 (h.2 s' hs')⟩

/-- **Simulation rule**: runs whose events are related stay related. -/
theorem run_related {R : S → S → Prop} {Q : E → E → Prop} {s t s' : S} {es fs : List E}
    (hrun : run step s es = some s') (hR : R s t) (hQ : List.Forall₂ Q es fs)
    (hstep : ∀ s t e f s', R s t → Q e f → step s e = some s' →
      ∃ t', step t f = some t' ∧ R s' t') : ∃ t', run step t fs = some t' ∧ R s' t' := by
  induction hQ generalizing s t with
  | nil => cases hrun; exact ⟨t, rfl, hR⟩
  | @cons e f es fs hef _ ih =>
    rw [run_cons] at hrun
    obtain ⟨s₁, hs₁, hrun⟩ := Option.bind_eq_some_iff.1 hrun
    obtain ⟨t₁, ht₁, hR₁⟩ := hstep _ _ _ _ _ hR hef hs₁
    obtain ⟨t', ht', hR'⟩ := ih hrun hR₁
    exact ⟨t', by rw [run_cons, ht₁]; exact ht', hR'⟩

/-- Runs whose events are related meet the same condition. -/
theorem meets_related {R : S → S → Prop} {Q : E → E → Prop} {C : S → E → Prop} {s t : S}
    {es fs : List E} (hR : R s t) (hQ : List.Forall₂ Q es fs)
    (hC : ∀ s t e f, R s t → Q e f → C s e → C t f)
    (hstep : ∀ s t e f t', R s t → Q e f → step t f = some t' →
      ∃ s', step s e = some s' ∧ R s' t') (hmeets : Meets step C s es) : Meets step C t fs := by
  induction hQ generalizing s t with
  | nil => trivial
  | @cons e f es fs hef _ ih =>
    refine ⟨hC s t e f hR hef hmeets.1, fun t' ht' => ?_⟩
    obtain ⟨s', hs', hR'⟩ := hstep s t e f t' hR hef ht'
    exact ih hR' (hmeets.2 s' hs')

end Machine
