import Mathlib.Order.Lattice
import Mathlib.Data.List.Basic

/-!
# Maps as sorted association lists

A map from a linear order is a list of entries with strictly increasing keys (`Sorted`). The
lists nest inside inductive types, they evaluate, and equality is extensional: two sorted lists
with the same lookups are the same list (`ext`).
-/

namespace SortedMap

variable {κ β : Type} [LinearOrder κ]

/-- The value at `k`. -/
def find (k : κ) : List (κ × β) → Option β
  | [] => none
  | (k', b) :: l => if k = k' then some b else find k l

/-- `l` with `b` at `k`. -/
def insert (k : κ) (b : β) : List (κ × β) → List (κ × β)
  | [] => [(k, b)]
  | (k', b') :: l =>
    if k < k' then (k, b) :: (k', b') :: l
    else if k = k' then (k, b) :: l
    else (k', b') :: insert k b l

/-- `l` without `k`. -/
def erase (k : κ) : List (κ × β) → List (κ × β)
  | [] => []
  | (k', b) :: l => if k = k' then erase k l else (k', b) :: erase k l

/-- The map with the given entries; the first entry of a key counts. -/
def ofList : List (κ × β) → List (κ × β)
  | [] => []
  | (k, b) :: l => insert k b (ofList l)

/-- The keys increase strictly. -/
def Sorted (l : List (κ × β)) : Prop := l.Pairwise fun a b => a.1 < b.1

/-! ## Lookups -/

@[simp] theorem find_nil (k : κ) : find k ([] : List (κ × β)) = none := rfl

@[simp] theorem find_insert_self (k : κ) (b : β) (l : List (κ × β)) :
    find k (insert k b l) = some b := by
  induction l with
  | nil => simp [insert, find]
  | cons x l ih =>
    obtain ⟨k', b'⟩ := x
    rcases lt_trichotomy k k' with h | rfl | h
    · simp [insert, find, h]
    · simp [insert, find]
    · simp [insert, find, h.not_gt, h.ne', ih]

theorem find_insert_ne {k k' : κ} (h : k' ≠ k) (b : β) (l : List (κ × β)) :
    find k' (insert k b l) = find k' l := by
  induction l with
  | nil => simp [insert, find, h]
  | cons x l ih =>
    obtain ⟨k1, b1⟩ := x
    rcases lt_trichotomy k k1 with h1 | rfl | h1
    · simp [insert, find, h1, h]
    · simp [insert, find, h]
    · simp [insert, find, h1.not_gt, h1.ne', ih]

theorem find_insert (k k' : κ) (b : β) (l : List (κ × β)) :
    find k' (insert k b l) = if k' = k then some b else find k' l := by
  by_cases h : k' = k
  · subst h; simp
  · simp [find_insert_ne h, h]

theorem find_erase (k k' : κ) (l : List (κ × β)) :
    find k' (erase k l) = if k' = k then none else find k' l := by
  induction l with
  | nil => simp [erase, find]
  | cons x l ih =>
    obtain ⟨k1, b1⟩ := x
    by_cases h : k = k1
    · subst h
      by_cases h' : k' = k
      · subst h'; simpa [erase] using ih
      · simp [erase, find, ih, h']
    · by_cases h1 : k' = k1
      · subst h1; simp [erase, find, h, Ne.symm h]
      · simp [erase, find, h, h1, ih]

theorem mem_of_find {k : κ} {b : β} {l : List (κ × β)} (h : find k l = some b) : (k, b) ∈ l := by
  induction l with
  | nil => cases h
  | cons x l ih =>
    obtain ⟨k', b'⟩ := x
    by_cases hk : k = k'
    · subst hk
      simp only [find, ↓reduceIte, Option.some.injEq] at h
      subst h; exact .head _
    · simp only [find, hk, ↓reduceIte] at h
      exact .tail _ (ih h)

theorem find_eq_none {k : κ} {l : List (κ × β)} : find k l = none ↔ ∀ x ∈ l, x.1 ≠ k := by
  induction l with
  | nil => simp
  | cons x l ih =>
    obtain ⟨k', b'⟩ := x
    by_cases hk : k = k'
    · simp [find, hk]
    · simp [find, hk, ih, Ne.symm hk]

theorem find_map {γ : Type} (f : β → γ) (k : κ) (l : List (κ × β)) :
    find k (l.map fun x => (x.1, f x.2)) = (find k l).map f := by
  induction l with
  | nil => rfl
  | cons x l ih =>
    obtain ⟨k', b⟩ := x
    by_cases hk : k = k' <;> simp [find, hk, ih]

/-! ## Entries -/

theorem mem_insert {k : κ} {b : β} {l : List (κ × β)} {x : κ × β} (h : x ∈ insert k b l) :
    x = (k, b) ∨ x ∈ l := by
  induction l with
  | nil => simpa [insert] using h
  | cons y l ih =>
    obtain ⟨k', b'⟩ := y
    simp only [insert] at h
    split at h
    · simpa using h
    · split at h
      · rcases List.mem_cons.1 h with h | h
        · exact .inl h
        · exact .inr (.tail _ h)
      · rcases List.mem_cons.1 h with rfl | h
        · exact .inr (.head _)
        · exact (ih h).imp id (.tail _)

theorem mem_erase {k : κ} {l : List (κ × β)} {x : κ × β} (h : x ∈ erase k l) : x ∈ l := by
  induction l with
  | nil => exact h
  | cons y l ih =>
    obtain ⟨k', b'⟩ := y
    simp only [erase] at h
    split at h
    · exact .tail _ (ih h)
    · rcases List.mem_cons.1 h with rfl | h
      · exact .head _
      · exact .tail _ (ih h)

theorem insert_ne_nil (k : κ) (b : β) (l : List (κ × β)) : insert k b l ≠ [] := by
  intro h
  have := find_insert_self k b l
  rw [h] at this; cases this

/-- A key below every other key is inserted at the front. -/
theorem insert_front {k : κ} {b : β} {l : List (κ × β)} (h : ∀ x ∈ l, k < x.1) :
    insert k b l = (k, b) :: l := by
  cases l with
  | nil => rfl
  | cons x l => simp [insert, h x (.head _)]

/-- A new key adds one entry. -/
theorem length_insert {k : κ} {b : β} {l : List (κ × β)} (h : find k l = none) :
    (insert k b l).length = l.length + 1 := by
  induction l with
  | nil => rfl
  | cons x l ih =>
    obtain ⟨k', b'⟩ := x
    by_cases hk : k = k'
    · simp [find, hk] at h
    · simp only [find, hk, ↓reduceIte] at h
      by_cases hl : k < k'
      · simp [insert, hl]
      · simp [insert, hl, hk, ih h]

theorem erase_of_find_none {k : κ} {l : List (κ × β)} (h : find k l = none) : erase k l = l := by
  induction l with
  | nil => rfl
  | cons x l ih =>
    obtain ⟨k', b⟩ := x
    by_cases hk : k = k'
    · simp [find, hk] at h
    · simp only [find, hk, ↓reduceIte] at h
      simp [erase, hk, ih h]

/-! ## Sorted lists -/

theorem Sorted.nil : Sorted ([] : List (κ × β)) := List.Pairwise.nil

theorem Sorted.tail {x : κ × β} {l : List (κ × β)} (h : Sorted (x :: l)) : Sorted l :=
  (List.pairwise_cons.1 h).2

/-- A sorted list has one entry for a key. -/
theorem find_of_mem {l : List (κ × β)} (h : Sorted l) {k : κ} {b : β} (hm : (k, b) ∈ l) :
    find k l = some b := by
  induction l with
  | nil => cases hm
  | cons x l ih =>
    obtain ⟨j, c⟩ := x
    obtain ⟨hx, hs⟩ := List.pairwise_cons.1 h
    rw [find]
    rcases List.mem_cons.1 hm with he | hm
    · cases he
      rw [if_pos rfl]
    · have hne : k ≠ j := (hx _ hm).ne'
      rw [if_neg hne, ih hs hm]

theorem Sorted.insert {l : List (κ × β)} (h : Sorted l) (k : κ) (b : β) :
    Sorted (insert k b l) := by
  induction l with
  | nil => simp [SortedMap.insert, Sorted]
  | cons x l ih =>
    obtain ⟨k', b'⟩ := x
    obtain ⟨hx, hl⟩ := List.pairwise_cons.1 h
    rcases lt_trichotomy k k' with hk | rfl | hk
    · simp only [SortedMap.insert, hk, ↓reduceIte]
      refine List.pairwise_cons.2 ⟨fun y hy => ?_, h⟩
      rcases List.mem_cons.1 hy with rfl | hy
      · exact hk
      · exact hk.trans (hx y hy)
    · simpa [SortedMap.insert, Sorted] using h
    · simp only [SortedMap.insert, hk.not_gt, hk.ne', ↓reduceIte]
      refine List.pairwise_cons.2 ⟨fun y hy => ?_, ih hl⟩
      rcases mem_insert hy with rfl | hy
      · exact hk
      · exact hx y hy

theorem Sorted.erase {l : List (κ × β)} (h : Sorted l) (k : κ) : Sorted (erase k l) := by
  induction l with
  | nil => exact .nil
  | cons x l ih =>
    obtain ⟨k', b'⟩ := x
    obtain ⟨hx, hl⟩ := List.pairwise_cons.1 h
    simp only [SortedMap.erase]
    split
    · exact ih hl
    · exact List.pairwise_cons.2 ⟨fun y hy => hx y (mem_erase hy), ih hl⟩

/-- The new entry and the entries of the other keys. -/
theorem Sorted.insert_perm {l : List (κ × β)} (h : Sorted l) (k : κ) (b : β) :
    (SortedMap.insert k b l).Perm ((k, b) :: SortedMap.erase k l) := by
  induction l with
  | nil => exact .refl _
  | cons x l ih =>
    obtain ⟨k', b'⟩ := x
    obtain ⟨hx, hl⟩ := List.pairwise_cons.1 h
    rcases lt_trichotomy k k' with hk | rfl | hk
    · simp only [SortedMap.insert, SortedMap.erase, hk, hk.ne, ↓reduceIte]
      rw [erase_of_find_none (find_eq_none.2 fun y hy => (hk.trans (hx y hy)).ne')]
    · simp only [SortedMap.insert, SortedMap.erase, lt_irrefl, ↓reduceIte]
      rw [erase_of_find_none (find_eq_none.2 fun y hy => (hx y hy).ne')]
    · simp only [SortedMap.insert, SortedMap.erase, hk.not_gt, hk.ne', ↓reduceIte]
      exact ((ih hl).cons _).trans (.swap _ _ _)

theorem sorted_ofList (l : List (κ × β)) : Sorted (ofList l) := by
  induction l with
  | nil => exact .nil
  | cons x l ih => exact ih.insert x.1 x.2

theorem find_ofList (k : κ) (l : List (κ × β)) : find k (ofList l) = find k l := by
  induction l with
  | nil => rfl
  | cons x l ih => obtain ⟨k', b⟩ := x; simp only [ofList, find_insert, find, ih]

theorem mem_ofList {x : κ × β} {l : List (κ × β)} (h : x ∈ ofList l) : x ∈ l := by
  induction l with
  | nil => exact h
  | cons y l ih =>
    rcases mem_insert h with rfl | h
    · exact .head _
    · exact .tail _ (ih h)

theorem Sorted.map {γ : Type} {l : List (κ × β)} (h : Sorted l) (f : β → γ) :
    Sorted (l.map fun x => (x.1, f x.2)) :=
  List.pairwise_map.2 h

/-- **Extensionality**: sorted lists with the same lookups are equal. -/
theorem ext {l l' : List (κ × β)} (h : Sorted l) (h' : Sorted l')
    (he : ∀ k, find k l = find k l') : l = l' := by
  induction l generalizing l' with
  | nil =>
    cases l' with
    | nil => rfl
    | cons x l' => have := he x.1; simp [find] at this
  | cons x l ih =>
    cases l' with
    | nil => have := he x.1; simp [find] at this
    | cons x' l' =>
      obtain ⟨k, b⟩ := x
      obtain ⟨k', b'⟩ := x'
      obtain ⟨hx, hl⟩ := List.pairwise_cons.1 h
      obtain ⟨hx', hl'⟩ := List.pairwise_cons.1 h'
      have hk : k = k' := by
        by_contra hne
        have h1 : (k, b) ∈ l' := by
          have : find k ((k', b') :: l') = some b := by rw [← he k]; simp [find]
          simpa [hne] using mem_of_find this
        have h2 : (k', b') ∈ l := by
          have : find k' ((k, b) :: l) = some b' := by rw [he k']; simp [find]
          simpa [Ne.symm hne] using mem_of_find this
        exact lt_asymm (hx _ h2) (hx' _ h1)
      subst hk
      have hb : b = b' := by simpa [find] using he k
      subst hb
      rw [ih hl hl' fun j => ?_]
      by_cases hj : j = k
      · subst hj
        rw [find_eq_none.2 fun x hm => (hx x hm).ne', find_eq_none.2 fun x hm => (hx' x hm).ne']
      · simpa [find, hj] using he j

theorem insert_of_find {l : List (κ × β)} (h : Sorted l) {k : κ} {b : β} (hf : find k l = some b) :
    insert k b l = l := by
  refine ext (h.insert k b) h fun j => ?_
  rw [find_insert]
  split
  · rename_i hj; rw [hj, hf]
  · rfl

/-- The entry of a key and the entries of the other keys. -/
theorem Sorted.perm_of_find {l : List (κ × β)} (h : Sorted l) {k : κ} {b : β}
    (hf : find k l = some b) : l.Perm ((k, b) :: SortedMap.erase k l) := by
  have hp := h.insert_perm k b
  rwa [insert_of_find h hf] at hp

end SortedMap
