import IChat.Data.ImmutableTree

/-!
# The values of a tree, by path

`valueAtPath` reads the value at a path, `setValue` and `removeValueAtPath` change it and no other
(`valueAtPath_setValue`, `valueAtPath_removeValueAtPath`). `findOnPath` looks for a value on the way
to a path, the one nearest to the root first. `topmost` lists the values with none above them, each
once (`mem_topmost`, `nodup_topmost`).
-/

open SortedMap

namespace ImmutableTree

variable {κ α β : Type} [LinearOrder κ]

def valueAtPath : ImmutableTree κ α → List κ → Option α
  | mk value _, [] => value
  | mk _ children, front :: path =>
    match find front children with
    | some child => child.valueAtPath path
    | none => none

def removeValueAtPath : ImmutableTree κ α → List κ → ImmutableTree κ α
  | mk _ children, [] => mk none children
  | mk value children, front :: path =>
    match find front children with
    | some child =>
      let newChild := child.removeValueAtPath path
      mk value (if newChild.isEmpty then erase front children else insert front newChild children)
    | none => mk value children

/-- The first result of `block` on the way to a path; it is applied to the values there with their
paths. -/
def findOnPath (block : List κ → α → Option β) (pathSoFar : List κ) :
    ImmutableTree κ α → List κ → Option β
  | mk value children, pathToFollow =>
    match value.bind (block pathSoFar) with
    | some result => some result
    | none =>
      match pathToFollow with
      | [] => none
      | front :: path =>
        match find front children with
        | some nextChild => findOnPath block (pathSoFar ++ [front]) nextChild path
        | none => none

mutual

/-- The values with none above them, with their paths. -/
def topmost (pathSoFar : List κ) : ImmutableTree κ α → List (List κ × α)
  | mk (some value) _ => [(pathSoFar, value)]
  | mk none children => topmostChildren pathSoFar children

def topmostChildren (pathSoFar : List κ) : List (κ × ImmutableTree κ α) → List (List κ × α)
  | [] => []
  | (childKey, childTree) :: children =>
    childTree.topmost (pathSoFar ++ [childKey]) ++ topmostChildren pathSoFar children

end

/-! ## Reading and writing -/

@[simp] theorem valueAtPath_nil (t : ImmutableTree κ α) : t.valueAtPath [] = t.value := by
  cases t; rfl

theorem valueAtPath_empty (p : List κ) : (empty : ImmutableTree κ α).valueAtPath p = none := by
  cases p <;> rfl

theorem valueAtPath_cons (t : ImmutableTree κ α) (k : κ) (p : List κ) :
    t.valueAtPath (k :: p) = (t.child k).valueAtPath p := by
  obtain ⟨v, cs⟩ := t
  simp only [valueAtPath, child_mk]
  cases find k cs with
  | none => exact (valueAtPath_empty p).symm
  | some c => rfl

theorem valueAtPath_subtreeAtPath (t : ImmutableTree κ α) (p q : List κ) :
    (t.subtreeAtPath p).valueAtPath q = t.valueAtPath (p ++ q) := by
  induction p generalizing t with
  | nil => rw [subtreeAtPath_nil]; rfl
  | cons k p ih => rw [subtreeAtPath_cons, ih, List.cons_append, valueAtPath_cons]

theorem setValue_cons (a : α) (t : ImmutableTree κ α) (k : κ) (p : List κ) :
    setValue a t (k :: p) = mk t.value (insert k (setValue a (t.child k) p) t.children) := by
  cases t; rfl

theorem valueAtPath_setValue (a : α) (t : ImmutableTree κ α) (p q : List κ) :
    (setValue a t p).valueAtPath q = if q = p then some a else t.valueAtPath q := by
  induction p generalizing t q with
  | nil =>
    cases t with
    | mk v cs => cases q <;> rfl
  | cons k p ih =>
    rw [setValue_cons]
    cases q with
    | nil => simp
    | cons j q =>
      rw [valueAtPath_cons, valueAtPath_cons, child_mk, find_insert]
      by_cases hj : j = k
      · subst hj
        simp [ih]
      · simp [hj, child]

/-- Removing the value of a child that is not there changes nothing. -/
theorem removeValueAtPath_cons (t : ImmutableTree κ α) (k : κ) (p : List κ) :
    t.removeValueAtPath (k :: p) = if (find k t.children).isSome then
      mk t.value (put k ((t.child k).removeValueAtPath p) t.children) else t := by
  obtain ⟨v, cs⟩ := t
  simp only [removeValueAtPath, child_mk, put, children_mk, value_mk]
  rcases Option.eq_none_or_eq_some (find k cs) with hf | ⟨c, hf⟩ <;> simp [hf]

theorem valueAtPath_removeValueAtPath (t : ImmutableTree κ α) (p q : List κ) :
    (t.removeValueAtPath p).valueAtPath q = if q = p then none else t.valueAtPath q := by
  induction p generalizing t q with
  | nil =>
    cases t with
    | mk v cs => cases q <;> rfl
  | cons k p ih =>
    rw [removeValueAtPath_cons]
    split
    · cases q with
      | nil => simp
      | cons j q =>
        rw [valueAtPath_cons, valueAtPath_cons, child_put]
        by_cases hj : j = k
        · subst hj
          simp [ih]
        · simp [hj, child]
    · rename_i hnone
      simp only [Bool.not_eq_true, Option.isSome_eq_false_iff, Option.isNone_iff_eq_none] at hnone
      split
      · rename_i hq
        rw [hq, valueAtPath_cons, child, hnone]
        exact valueAtPath_empty p
      · rfl

/-! ## Sorted children -/

/-- The children of every node are sorted. -/
inductive Ordered : ImmutableTree κ α → Prop
  | mk {v : Option α} {cs : List (κ × ImmutableTree κ α)} (sorted : Sorted cs)
      (children : ∀ k c, (k, c) ∈ cs → Ordered c) : Ordered (.mk v cs)

namespace Ordered

variable {t : ImmutableTree κ α}

theorem empty : Ordered (ImmutableTree.empty : ImmutableTree κ α) := .mk .nil nofun

theorem of_child (h : Ordered t) (k : κ) : Ordered (t.child k) := by
  cases h with
  | @mk v cs hs hc =>
    rw [child_mk]
    cases hf : find k cs with
    | none => exact .empty
    | some c => exact hc k c (mem_of_find hf)

theorem subtreeAtPath (h : Ordered t) (p : List κ) : Ordered (t.subtreeAtPath p) := by
  induction p generalizing t with
  | nil => rwa [subtreeAtPath_nil]
  | cons k p ih => rw [subtreeAtPath_cons]; exact ih (h.of_child k)

theorem setValue (h : Ordered t) (a : α) (p : List κ) : Ordered (setValue a t p) := by
  induction p generalizing t with
  | nil =>
    cases h with
    | mk hs hc => exact .mk hs hc
  | cons k p ih =>
    have hk := ih (h.of_child k)
    cases h with
    | @mk v cs hs hc =>
      rw [setValue_cons]
      refine .mk (hs.insert k _) fun j c hm => ?_
      rcases mem_insert hm with hx | hm
      · cases hx
        exact hk
      · exact hc j c hm

theorem removeValueAtPath (h : Ordered t) (p : List κ) : Ordered (t.removeValueAtPath p) := by
  induction p generalizing t with
  | nil =>
    cases h with
    | mk hs hc => exact .mk hs hc
  | cons k p ih =>
    have hk := ih (h.of_child k)
    rw [removeValueAtPath_cons]
    split
    · cases h with
      | @mk v cs hs hc =>
        refine .mk (sorted_put hs k _) fun j c hm => ?_
        rcases mem_put hm with ⟨hx, -⟩ | hm
        · cases hx
          exact hk
        · exact hc j c hm
    · exact h

end Ordered

/-! ## On the way to a path -/

theorem findOnPath_mk (block : List κ → α → Option β) (pathSoFar : List κ)
    (t : ImmutableTree κ α) (p : List κ) :
    findOnPath block pathSoFar t p = match t.value.bind (block pathSoFar) with
      | some result => some result
      | none => match p with
        | [] => none
        | k :: p => findOnPath block (pathSoFar ++ [k]) (t.child k) p := by
  have hempty : ∀ (q p : List κ), findOnPath block q empty p = none := by
    intro q p
    cases p <;> rfl
  obtain ⟨v, cs⟩ := t
  cases p with
  | nil =>
    simp only [findOnPath, value_mk]
  | cons k p =>
    simp only [findOnPath, value_mk, child_mk]
    rcases Option.eq_none_or_eq_some (find k cs) with hf | ⟨c, hf⟩
    · simp only [hf, Option.getD_none, hempty]
    · simp only [hf, Option.getD_some]

/-- **The first result on the way** comes from a value there. -/
theorem findOnPath_eq_some {block : List κ → α → Option β} {s p : List κ} {t : ImmutableTree κ α}
    {b : β} (h : findOnPath block s t p = some b) :
    ∃ q v, q <+: p ∧ t.valueAtPath q = some v ∧ block (s ++ q) v = some b := by
  induction p generalizing s t with
  | nil =>
    rw [findOnPath_mk] at h
    split at h
    · rename_i hb
      cases h
      obtain ⟨v, hv, hb⟩ := Option.bind_eq_some_iff.1 hb
      exact ⟨[], v, List.nil_prefix, by rw [valueAtPath_nil, hv], by rwa [List.append_nil]⟩
    · cases h
  | cons k p ih =>
    rw [findOnPath_mk] at h
    split at h
    · rename_i hb
      cases h
      obtain ⟨v, hv, hb⟩ := Option.bind_eq_some_iff.1 hb
      exact ⟨[], v, List.nil_prefix, by rw [valueAtPath_nil, hv], by rwa [List.append_nil]⟩
    · obtain ⟨q, v, hq, hv, hb⟩ := ih h
      refine ⟨k :: q, v, (List.prefix_cons_inj k).2 hq, by rw [valueAtPath_cons, hv], ?_⟩
      rwa [List.append_assoc] at hb

theorem findOnPath_eq_none {block : List κ → α → Option β} {s p : List κ}
    {t : ImmutableTree κ α} (h : findOnPath block s t p = none) {q : List κ} (hq : q <+: p) {v : α}
    (hv : t.valueAtPath q = some v) : block (s ++ q) v = none := by
  induction p generalizing s t q with
  | nil =>
    rw [List.prefix_nil] at hq
    subst hq
    rw [findOnPath_mk] at h
    split at h
    · cases h
    · rename_i hb
      rw [valueAtPath_nil] at hv
      rwa [hv, Option.bind_some, ← List.append_nil s] at hb
  | cons k p ih =>
    rw [findOnPath_mk] at h
    split at h
    · cases h
    · rename_i hb
      cases q with
      | nil =>
        rw [valueAtPath_nil] at hv
        rwa [hv, Option.bind_some, ← List.append_nil s] at hb
      | cons j q =>
        obtain ⟨rfl, hq'⟩ := List.cons_prefix_cons.1 hq
        rw [valueAtPath_cons] at hv
        have hb' := ih h hq' hv
        rwa [List.append_assoc] at hb'

/-! ## The topmost values -/

omit [LinearOrder κ] in
theorem mem_topmostChildren {s : List κ} {cs : List (κ × ImmutableTree κ α)} {x : List κ × α} :
    x ∈ topmostChildren s cs ↔ ∃ k c, (k, c) ∈ cs ∧ x ∈ c.topmost (s ++ [k]) := by
  induction cs with
  | nil => simp [topmostChildren]
  | cons y cs ih =>
    obtain ⟨k, c⟩ := y
    rw [topmostChildren, List.mem_append, ih]
    constructor
    · rintro (hx | ⟨k', c', hm, hx⟩)
      · exact ⟨k, c, .head _, hx⟩
      · exact ⟨k', c', .tail _ hm, hx⟩
    · rintro ⟨k', c', hm, hx⟩
      rcases List.mem_cons.1 hm with he | hm
      · cases he
        exact .inl hx
      · exact .inr ⟨k', c', hm, hx⟩

/-- **The topmost values** are those with none above. -/
theorem mem_topmost {t : ImmutableTree κ α} (h : Ordered t) {s : List κ} {x : List κ × α} :
    x ∈ t.topmost s ↔ ∃ q, x.1 = s ++ q ∧ t.valueAtPath q = some x.2 ∧
      ∀ r, r <+: q → r ≠ q → t.valueAtPath r = none := by
  induction h generalizing s with
  | @mk v cs hs hc ih =>
    cases v with
    | some a =>
      rw [topmost, List.mem_singleton]
      constructor
      · rintro rfl
        refine ⟨[], (List.append_nil s).symm, rfl, fun r hr hne => ?_⟩
        rw [List.prefix_nil] at hr
        exact absurd hr hne
      · rintro ⟨q, hq, hv, hnone⟩
        cases q with
        | nil =>
          cases hv
          rw [List.append_nil] at hq
          rw [← hq]
        | cons k q => cases hnone [] List.nil_prefix nofun
    | none =>
      rw [topmost, mem_topmostChildren]
      constructor
      · rintro ⟨k, c, hm, hx⟩
        have hchild : (mk none cs).child k = c := by
          rw [child_mk, find_of_mem hs hm]
          rfl
        obtain ⟨q, hq, hv, hnone⟩ := (ih k c hm).1 hx
        refine ⟨k :: q, by rw [hq, List.append_assoc]; rfl, by rw [valueAtPath_cons, hchild, hv],
          fun r hr hne => ?_⟩
        cases r with
        | nil => rfl
        | cons j r =>
          obtain ⟨rfl, hr'⟩ := List.cons_prefix_cons.1 hr
          rw [valueAtPath_cons, hchild]
          exact hnone r hr' fun he => hne (by rw [he])
      · rintro ⟨q, hq, hv, hnone⟩
        cases q with
        | nil => cases hv
        | cons k q =>
          rw [valueAtPath_cons, child_mk] at hv
          rcases Option.eq_none_or_eq_some (find k cs) with hf | ⟨c, hf⟩
          · rw [hf, Option.getD_none, valueAtPath_empty] at hv
            cases hv
          · rw [hf, Option.getD_some] at hv
            have hm := mem_of_find hf
            refine ⟨k, c, hm, (ih k c hm).2 ⟨q, ?_, hv, fun r hr hne => ?_⟩⟩
            · rw [hq, List.append_assoc]
              rfl
            · have hnone := hnone (k :: r) (List.cons_prefix_cons.2 ⟨rfl, hr⟩) fun he =>
                hne (List.cons.inj he).2
              rwa [valueAtPath_cons, child_mk, hf, Option.getD_some] at hnone

theorem nodup_topmost {t : ImmutableTree κ α} (h : Ordered t) (s : List κ) :
    ((t.topmost s).map (·.1)).Nodup := by
  induction h generalizing s with
  | @mk v cs hs hc ih =>
    cases v with
    | some a => simp [topmost]
    | none =>
      rw [topmost]
      induction cs with
      | nil => exact .nil
      | cons x cs ihs =>
        obtain ⟨k, c⟩ := x
        obtain ⟨hx, hst⟩ := List.pairwise_cons.1 hs
        rw [topmostChildren, List.map_append]
        have hcs : ∀ k' c', (k', c') ∈ cs → Ordered c' := fun k' c' hm => hc k' c' (.tail _ hm)
        refine List.nodup_append.2 ⟨ih k c (.head _) _,
          ihs hst hcs fun k' c' hm => ih k' c' (.tail _ hm), ?_⟩
        intro p hp p' hp' heq
        obtain ⟨y, hy, rfl⟩ := List.mem_map.1 hp
        obtain ⟨y', hy', rfl⟩ := List.mem_map.1 hp'
        obtain ⟨k', c', hm, hy'⟩ := mem_topmostChildren.1 hy'
        obtain ⟨q, hq, -⟩ := (mem_topmost (hc k c (.head _))).1 hy
        obtain ⟨q', hq', -⟩ := (mem_topmost (hcs k' c' hm)).1 hy'
        rw [hq, hq', List.append_assoc, List.append_assoc, List.append_cancel_left_eq] at heq
        exact (hx _ hm).ne (List.cons.inj heq).1

end ImmutableTree
