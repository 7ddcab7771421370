import Mathlib.Data.List.Infix
import Mathlib.Tactic.Common

/-!
# The topmost paths of a set

A path of a set is topmost if no other path of the set is a prefix of it. Every path of the set is
at or below exactly one topmost one (`existsUnique_topmost`). The lemmas on adding and removing a
path say how the topmost ones change, by whether another path of the set is above it.
-/

/-- The paths of `D` with no other path of `D` above. -/
def Topmost {κ : Type} (D : List κ → Prop) (p : List κ) : Prop :=
  D p ∧ ∀ q, q <+: p → D q → q = p

namespace Topmost

variable {κ : Type} {D : List κ → Prop} {p q : List κ}

theorem prefix_antisymm {p q : List κ} (h : p <+: q) (h' : q <+: p) : p = q :=
  h.eq_of_length (Nat.le_antisymm h.length_le h'.length_le)

theorem congr {D' : List κ → Prop} (h : ∀ p, D p ↔ D' p) : Topmost D p ↔ Topmost D' p := by
  simp only [Topmost, h]

/-- Topmost paths above one path are equal. -/
theorem unique {r : List κ} (hp : Topmost D p) (hq : Topmost D q) (hpr : p <+: r)
    (hqr : q <+: r) : p = q := by
  rcases List.prefix_or_prefix_of_prefix hpr hqr with h | h
  · exact hq.2 p h hp.1
  · exact (hp.2 q h hq.1).symm

theorem exists_of_mem (h : D p) : ∃ q, q <+: p ∧ Topmost D q := by
  induction hn : p.length using Nat.strong_induction_on generalizing p with
  | _ n ih =>
    by_cases htop : Topmost D p
    · exact ⟨p, List.prefix_rfl, htop⟩
    · -- another path of the set is above
      simp only [Topmost, h, true_and, not_forall] at htop
      obtain ⟨r, hr, hD, hne⟩ := htop
      have hlt : r.length < n := by
        rcases Nat.lt_or_ge r.length p.length with hlt | hge
        · omega
        · exact absurd (hr.eq_of_length (Nat.le_antisymm hr.length_le hge)) hne
      obtain ⟨q, hq, htop⟩ := ih r.length hlt hD rfl
      exact ⟨q, hq.trans hr, htop⟩

/-- **Every path of the set is covered by exactly one topmost path**. -/
theorem existsUnique_topmost (h : D p) : ∃! q, Topmost D q ∧ q <+: p := by
  obtain ⟨q, hq, htop⟩ := exists_of_mem h
  exact ⟨q, ⟨htop, hq⟩, fun r ⟨hr, hrp⟩ => hr.unique htop hrp hq⟩

/-! ## Adding a path -/

theorem insert_covered (h : ∃ r, r <+: p ∧ D r) :
    Topmost (fun q => q = p ∨ D q) q ↔ Topmost D q := by
  obtain ⟨r, hrp, hr⟩ := h
  constructor
  · rintro ⟨hq, htop⟩
    refine ⟨?_, fun s hs hD => htop s hs (.inr hD)⟩
    rcases hq with rfl | hq
    · have he := htop r hrp (.inr hr)
      rwa [← he]
    · exact hq
  · rintro ⟨hq, htop⟩
    refine ⟨.inr hq, fun s hs hD => ?_⟩
    rcases hD with rfl | hD
    · have he := htop r (hrp.trans hs) hr
      rw [he] at hrp
      exact prefix_antisymm hs hrp
    · exact htop s hs hD

theorem insert_uncovered (h : ∀ r, r <+: p → ¬ D r) :
    Topmost (fun q => q = p ∨ D q) q ↔ q = p ∨ (Topmost D q ∧ ¬ p <+: q) := by
  constructor
  · rintro ⟨hq, htop⟩
    by_cases hqp : q = p
    · exact .inl hqp
    · refine .inr ⟨⟨hq.resolve_left hqp, fun s hs hD => htop s hs (.inr hD)⟩, fun hpq => ?_⟩
      exact hqp (htop p hpq (.inl rfl)).symm
  · rintro (rfl | ⟨⟨hq, htop⟩, hpq⟩)
    · refine ⟨.inl rfl, fun s hs hD => ?_⟩
      exact hD.resolve_right (h s hs)
    · refine ⟨.inr hq, fun s hs hD => ?_⟩
      rcases hD with rfl | hD
      · exact absurd hs hpq
      · exact htop s hs hD

/-! ## Removing a path -/

theorem remove_covered (h : ∃ r, r <+: p ∧ r ≠ p ∧ D r) :
    Topmost (fun q => q ≠ p ∧ D q) q ↔ Topmost D q := by
  obtain ⟨r, hrp, hne, hr⟩ := h
  constructor
  · rintro ⟨⟨hqp, hq⟩, htop⟩
    refine ⟨hq, fun s hs hD => ?_⟩
    by_cases hsp : s = p
    · subst hsp
      have he := htop r (hrp.trans hs) ⟨hne, hr⟩
      rw [he] at hrp
      exact prefix_antisymm hs hrp
    · exact htop s hs ⟨hsp, hD⟩
  · rintro ⟨hq, htop⟩
    refine ⟨⟨?_, hq⟩, fun s hs ⟨_, hD⟩ => htop s hs hD⟩
    rintro rfl
    exact hne (htop r hrp hr)

/-- What is topmost below the removed path takes its place. -/
theorem remove : Topmost (fun q => q ≠ p ∧ D q) q ↔ (Topmost D q ∧ q ≠ p) ∨
    (p <+: q ∧ Topmost (fun q => q ≠ p ∧ D q) q) := by
  constructor
  · intro htop
    by_cases hpq : p <+: q
    · exact .inr ⟨hpq, htop⟩
    · obtain ⟨⟨hqp, hq⟩, htop⟩ := htop
      refine .inl ⟨⟨hq, fun s hs hD => htop s hs ⟨?_, hD⟩⟩, hqp⟩
      rintro rfl
      exact hpq hs
  · rintro (⟨⟨hq, htop⟩, hqp⟩ | ⟨-, htop⟩)
    · exact ⟨⟨hqp, hq⟩, fun s hs ⟨_, hD⟩ => htop s hs hD⟩
    · exact htop

/-- The topmost paths below a path that has none above. -/
theorem append_iff (h : ∀ r, r <+: p → r ≠ p → ¬ D r) {r : List κ} :
    Topmost (fun q => q ≠ p ∧ D q) (p ++ r) ↔
      r ≠ [] ∧ D (p ++ r) ∧ ∀ s, s <+: r → s ≠ [] → D (p ++ s) → s = r := by
  have hne : ∀ s : List κ, p ++ s ≠ p ↔ s ≠ [] := fun s => by simp
  constructor
  · rintro ⟨⟨hrp, hr⟩, htop⟩
    refine ⟨(hne r).1 hrp, hr, fun s hs hnil hD => ?_⟩
    have he := htop (p ++ s) ((List.prefix_append_right_inj p).2 hs) ⟨(hne s).2 hnil, hD⟩
    exact List.append_cancel_left he
  · rintro ⟨hnil, hr, htop⟩
    refine ⟨⟨(hne r).2 hnil, hr⟩, fun s hs ⟨hsp, hD⟩ => ?_⟩
    rcases List.prefix_or_prefix_of_prefix hs (List.prefix_append p r) with hsp' | ⟨u, rfl⟩
    · exact absurd hD (h s hsp' hsp)
    · rw [htop u ((List.prefix_append_right_inj p).1 hs) ((hne u).1 hsp) hD]

end Topmost
