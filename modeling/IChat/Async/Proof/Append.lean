import IChat.Async.Proof.LostUpdate
import Mathlib.Data.List.Induction
import Mathlib.Data.List.Perm.Subperm

/-!
# Appending without protection

Clients that append to a list kept at one location (`Appending`): each reads it, adds its own entry
and writes the whole list. When all of them succeed the list has its start and the entries of the
updates that were not lost (`Config.run_items`). It has the entries of all clients exactly when
every write was fresh (`Config.allKept_iff`).
-/

namespace Async

variable {σ π ν ρ ι β : Type} [Mem σ π ν]

/-- The updates `f` append the entries to the items in a value. `Valid` values are those the
clients see; an update of a value that is not `Good` drops its items. -/
structure Appending (σ : Type) [Mem σ π ν] (f : ι → ν → ν) (Valid Good : ν → Prop)
    (items : ν → List β) (entry : ι → β) : Prop where
  valid : ∀ i v, Valid v → Valid (Mem.norm σ (f i v))
  good : ∀ i v, Valid v → Good (Mem.norm σ (f i v))
  append : ∀ i v, Valid v → Good v → items (Mem.norm σ (f i v)) = items v ++ [entry i]
  drop : ∀ i v, Valid v → ¬ Good v → items v ≠ [] ∧ items (Mem.norm σ (f i v)) = [entry i]

/-- The list has its start and one entry for each client, in some order. -/
def AllKept (start final : List β) (entry : ι → β) : Prop :=
  ∃ L : List ι, L.Nodup ∧ (∀ i, i ∈ L) ∧ final.Perm (start ++ L.map entry)

section
variable {f : ι → ν → ν} {Valid Good : ν → Prop} {items : ν → List β} {entry : ι → β}

theorem Appending.chain_valid (h : Appending σ f Valid Good items entry) {v : ν} (hv : Valid v)
    (L : List ι) : Valid (chain σ f v L) := by
  induction L using List.reverseRecOn with
  | nil => exact hv
  | append_singleton L i ih => rw [chain_concat]; exact h.valid i _ ih

theorem Appending.chain_append (h : Appending σ f Valid Good items entry) {v : ν} (hv : Valid v)
    (hg : Good v) (L : List ι) : items (chain σ f v L) = items v ++ L.map entry := by
  have hgood : ∀ L : List ι, Good (chain σ f v L) := fun L => by
    cases L using List.reverseRecOn with
    | nil => exact hg
    | append_singleton L i => rw [chain_concat]; exact h.good i _ (h.chain_valid hv L)
  induction L using List.reverseRecOn with
  | nil => simp
  | append_singleton L i ih =>
    rw [chain_concat, h.append i _ (h.chain_valid hv L) (hgood L), ih]
    simp

theorem Appending.chain_drop (h : Appending σ f Valid Good items entry) {v : ν} (hv : Valid v)
    (hg : ¬ Good v) {L : List ι} (hL : L ≠ []) : items (chain σ f v L) = L.map entry := by
  cases L with
  | nil => exact absurd rfl hL
  | cons i L =>
    change items (chain σ f (Mem.norm σ (f i v)) L) = _
    rw [h.chain_append (h.valid i v hv) (h.good i v hv), (h.drop i v hv hg).2]
    rfl

variable [DecidableEq ι] {p : π} {S : ρ → Prop} {c : Config ι σ π ν ρ} {sched : List ι}

/-- **The items after a run in which every client succeeds**: those of the start and the entries
of `L`. All clients are in `L` exactly when every write was fresh. -/
theorem Config.run_items (h : Appending σ f Valid Good items entry)
    (hv : Valid (Mem.get c.store p)) (hU : ∀ i, Updates σ p (f i) S (c.jobs i).prog)
    (hdone : ∀ i, ∃ r, ((c.run sched).jobs i).prog = .ret r ∧ S r) :
    ∃ L : List ι, L.Nodup ∧ (c.FreshRun p sched ↔ ∀ i, i ∈ L) ∧
      ((Nonempty ι → Good (Mem.get c.store p)) → items (Mem.get (c.run sched).store p) =
        items (Mem.get c.store p) ++ L.map entry) ∧
      (Nonempty ι → ¬ Good (Mem.get c.store p) →
        items (Mem.get (c.run sched).store p) = L.map entry) := by
  obtain ⟨L, W, hL, hW, hsub, hlast, -, hall, hval, hfresh, hlen⟩ :=
    run_chain (B := fun _ => False) (fun i _ => hU i) (fun _ h => h.elim) sched
  have hmem : ∀ i, i ∈ W := fun i => by
    obtain ⟨r, hr, hS⟩ := hdone i
    exact hall i r id hr hS
  refine ⟨L, hL, ⟨fun hF i => hfresh hF ▸ hmem i, fun hi => hlen ?_⟩, fun hg => ?_, fun ⟨i⟩ hg => ?_⟩
  · exact Nat.le_antisymm (hL.length_le_of_subset hsub) (hW.length_le_of_subset fun i _ => hi i)
  · rw [hval]
    cases L with
    | nil => simp
    | cons i L => exact h.chain_append hv (hg ⟨i⟩) _
  · rw [hval]
    exact h.chain_drop hv hg fun h => List.ne_nil_of_mem (hmem i) (hlast h)

/-- **Nothing is lost exactly when every write was fresh** and the list at the start was not
dropped. -/
theorem Config.allKept_iff (h : Appending σ f Valid Good items entry)
    (hv : Valid (Mem.get c.store p)) (hU : ∀ i, Updates σ p (f i) S (c.jobs i).prog)
    (hdone : ∀ i, ∃ r, ((c.run sched).jobs i).prog = .ret r ∧ S r) :
    AllKept (items (Mem.get c.store p)) (items (Mem.get (c.run sched).store p)) entry ↔
      c.FreshRun p sched ∧ (Nonempty ι → Good (Mem.get c.store p)) := by
  obtain ⟨L, hnd, hfresh, hgood, hdrop⟩ := run_items h hv hU hdone
  rw [hfresh]
  constructor
  · rintro ⟨M, hM, hMall, hperm⟩
    have hsub : L.length ≤ M.length := hnd.length_le_of_subset fun i _ => hMall i
    -- as many entries as clients: all of them
    have hall : M.length ≤ L.length → ∀ i, i ∈ L := fun hle i =>
      (List.subperm_of_subset hnd fun i _ => hMall i).perm_of_length_le hle |>.mem_iff.2 (hMall i)
    by_cases hg : Nonempty ι → Good (Mem.get c.store p)
    · have hlen := hperm.length_eq
      rw [hgood hg] at hlen
      simp only [List.length_append, List.length_map] at hlen
      exact ⟨hall (by omega), hg⟩
    · obtain ⟨hne, hg⟩ := Classical.not_imp.1 hg
      have hlen := hperm.length_eq
      rw [hdrop hne hg] at hlen
      simp only [List.length_append, List.length_map] at hlen
      obtain ⟨i⟩ := hne
      exact absurd (List.length_eq_zero_iff.1 (by omega)) (h.drop i _ hv hg).1
  · rintro ⟨hall, hg⟩
    exact ⟨L, hnd, hall, by rw [hgood hg]⟩

end

end Async
