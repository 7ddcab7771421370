import IChat.Firebase.Proof.RoundTrip
import Mathlib.Data.List.Nodup

/-!
# The entries of a stored collection

A collection is stored as the children of a node, whether it reads as an array, as an array with
holes or as a dictionary (`entries_val_node`). A write below the node replaces the entry of one key,
or adds one (`entries_setChild`). Where the leaves of a value are, and which keys it `Lacks`.
-/

namespace Firebase

open SortedMap

theorem arrChildren_nulls {xs : List Value} (h : ∀ x ∈ xs, x = .null) (i : Nat) :
    arrChildren i xs = [] := by
  induction xs generalizing i with
  | nil => rfl
  | cons x xs ih =>
    rw [arrChildren, h x (.head _), ih fun y hy => h y (.tail _ hy)]
    rfl

/-- A stored collection without entries is nothing. -/
theorem entries_eq_nil {v : Value} (h : Canonical v) : entries v = [] ↔ v = .null := by
  refine ⟨fun he => ?_, fun he => by rw [he]; rfl⟩
  cases v with
  | null => rfl
  | leaf a => cases he
  | arr xs =>
    have hnull : ∀ x ∈ xs, x = .null := fun x hx => by
      have hx' := List.filter_eq_nil_iff.1 he x hx
      cases x <;> first | rfl | exact absurd rfl hx'
    have hstored : stored (.arr xs) = .null := by
      rw [stored, nodeFrom, arrChildren_nulls hnull]; rfl
    rw [Canonical, hstored] at h
    exact h.symm
  | dict kvs =>
    obtain rfl := List.map_eq_nil_iff.1 he
    cases h

/-! ## The children of a node -/

/-- Looking up each key once finds every value once. -/
theorem filterMap_find_perm {β : Type} {l : List (String × β)} (h : Sorted l) {keys : List String}
    (hkeys : keys.Nodup) (hall : ∀ x ∈ l, x.1 ∈ keys) :
    (keys.filterMap fun k => find k l).Perm (l.map Prod.snd) := by
  induction l generalizing keys with
  | nil => simp
  | cons x l ih =>
    obtain ⟨k, b⟩ := x
    obtain ⟨hx, hl⟩ := List.pairwise_cons.1 h
    have hother : ∀ k' ∈ keys.erase k, find k' ((k, b) :: l) = find k' l := fun k' hk' => by
      simp [find, ((hkeys.mem_erase_iff).1 hk').1]
    have hrest := ih hl (hkeys.erase k) fun y hy =>
      hkeys.mem_erase_iff.2 ⟨(hx y hy).ne', hall y (.tail _ hy)⟩
    have hfront := (List.perm_cons_erase (hall _ (.head _))).filterMap
      fun k' => find k' ((k, b) :: l)
    rw [List.filterMap_cons, find, if_pos rfl, List.filterMap_congr hother] at hfront
    exact hfront.trans (hrest.cons b)

/-- The entries of an array of lookups are the values found. -/
theorem entries_arr_getD {ι : Type} {g : ι → Option Value} (hg : ∀ i, g i ≠ some .null)
    (is : List ι) : entries (.arr (is.map fun i => (g i).getD .null)) = is.filterMap g := by
  induction is with
  | nil => rfl
  | cons i is ih =>
    simp only [entries, List.map_cons, List.filterMap_cons] at ih ⊢
    cases hi : g i with
    | none => exact ih
    | some v =>
      have hv : v.isNull = false := by
        cases v with
        | null => exact absurd hi (hg i)
        | _ => rfl
      simp only [Option.getD_some, List.filter_cons, hv, Bool.not_false, ↓reduceIte, ih]

/-- The entries of an export are the exported values. -/
theorem entries_exportChildren {obj : List (String × Value)} (h : Sorted obj)
    (hnull : ∀ x ∈ obj, x.2 ≠ .null) : (entries (exportChildren obj)).Perm (obj.map Prod.snd) := by
  unfold exportChildren
  split
  · rename_i he
    rw [List.isEmpty_iff.1 he]
    exact .refl _
  · split
    · rename_i m hm
      split
      · have hkeys : ((List.range (m + 1)).map fun i => toString i).Nodup := by
          refine List.Nodup.map (fun i j hij => Option.some.inj ?_) List.nodup_range
          rw [← arrayIndex_toString i, ← arrayIndex_toString j]
          exact congrArg arrayIndex hij
        have hfound : ∀ i : Nat, find (toString i) obj ≠ some .null :=
          fun i hi => hnull _ (mem_of_find hi) rfl
        rw [entries_arr_getD hfound]
        have hperm := filterMap_find_perm h hkeys fun x hx => ?_
        · rwa [List.filterMap_map] at hperm
        · obtain ⟨i, hi, hk⟩ := maxKey_eq_some hm x hx
          exact List.mem_map.2 ⟨i, List.mem_range.2 (by omega), (toString_of_arrayIndex hk).symm⟩
      · exact .refl _
    · exact .refl _

/-- **The entries of what is read are the values of the children.** -/
theorem entries_val_node {cs : List (String × FNode)} (h : (KeyTree.node cs).WF) :
    (entries (val (.node cs))).Perm (cs.map fun x => val x.2) := by
  cases h with
  | node hs hc hn =>
    rw [val_node]
    refine (entries_exportChildren (hs.map val) fun x hx => ?_).trans (.of_eq (List.map_map ..))
    obtain ⟨y, hy, rfl⟩ := List.mem_map.1 hx
    intro hnull
    have := hn _ _ hy
    rw [val_eq_null.1 hnull] at this
    cases this

/-! ## Writes below a node -/

/-- The values of the other children. -/
def entriesBut (k : String) : FNode → List Value
  | .leaf _ => []
  | .node cs => (erase k cs).map fun x => val x.2

theorem entries_child {n : FNode} (h : n.WF) {k : String} (hk : (n.child k).isEmpty = false) :
    (entries (val n)).Perm (val (n.child k) :: entriesBut k n) := by
  cases n with
  | leaf a => cases hk
  | node cs =>
    refine (entries_val_node h).trans ?_
    cases h with
    | node hs hc hn =>
      simp only [KeyTree.child] at hk ⊢
      cases hf : find k cs with
      | none => rw [hf] at hk; cases hk
      | some c => exact (hs.perm_of_find hf).map fun x => val x.2

theorem entries_no_child {cs : List (String × FNode)} (h : (KeyTree.node cs).WF) {k : String}
    (hk : ((KeyTree.node cs).child k).isEmpty = true) :
    (entries (val (.node cs))).Perm (entriesBut k (.node cs)) := by
  refine (entries_val_node h).trans ?_
  cases h with
  | node hs hc hn =>
    simp only [KeyTree.child] at hk
    cases hf : find k cs with
    | none => rw [entriesBut, erase_of_find_none hf]
    | some c =>
      rw [hf, Option.getD_some, hn _ _ (mem_of_find hf)] at hk
      cases hk

/-- **A write below a node replaces the entry of one key, or adds one.** -/
theorem entries_setChild {n : FNode} (h : n.WF) (k : String) {c : FNode} (hc : c.WF)
    (hne : c.isEmpty = false) :
    (entries (val (n.setChild k c))).Perm (val c :: entriesBut k n) := by
  have hw := h.setChild k hc
  cases n with
  | leaf a =>
    simp only [KeyTree.setChild, KeyTree.put, hne, Bool.false_eq_true, ↓reduceIte] at hw ⊢
    exact entries_val_node hw
  | node cs =>
    simp only [KeyTree.setChild, KeyTree.put, hne, Bool.false_eq_true, ↓reduceIte] at hw ⊢
    refine (entries_val_node hw).trans ?_
    cases h with
    | node hs => exact (hs.insert_perm k c).map fun x => val x.2

/-! ## Lists of dictionaries -/

/-- The keys of a stored list are its indices. -/
theorem child_ofDictArray_iff {ds : List (List (String × Value))}
    (hds : ∀ d ∈ ds, Canonical (.dict d)) {k : String} :
    ((nodeFrom (.ofDictArray ds)).child k).isEmpty = true ↔ ∀ i < ds.length, k ≠ toString i := by
  rw [Value.ofDictArray, child_nodeFrom_arr]
  cases hk : arrayIndex k with
  | none =>
    refine iff_of_true rfl fun i _ h => ?_
    rw [h, arrayIndex_toString] at hk
    cases hk
  | some j =>
    obtain rfl := toString_of_arrayIndex hk
    simp only [List.getD_eq_getElem?_getD, List.getElem?_map]
    by_cases hj : j < ds.length
    · rw [List.getElem?_eq_getElem hj]
      refine iff_of_false ?_ fun h => h j hj rfl
      have hne := (hds _ (List.getElem_mem hj)).isEmpty_nodeFrom fun h => by cases h
      simp [hne]
    · rw [List.getElem?_eq_none (Nat.le_of_not_lt hj)]
      refine iff_of_true rfl fun i hi h => ?_
      have hij := congrArg arrayIndex h
      rw [arrayIndex_toString, arrayIndex_toString] at hij
      cases hij
      exact hj hi

/-- A tree that is nowhere in the new entry is in the new list where it was before. -/
theorem get_ofDictArray_append_iff (ds : List (List (String × Value)))
    {entry : List (String × Value)} {n : FNode} (hne : n.isEmpty = false) {r : List String}
    (hentry : (nodeFrom (.dict entry)).get r ≠ n) (k : String) :
    (nodeFrom (.ofDictArray (ds ++ [entry]))).get (k :: r) = n ↔
      (nodeFrom (.ofDictArray ds)).get (k :: r) = n := by
  have hempty : (KeyTree.empty : FNode).get r ≠ n := fun h => by
    rw [← h, KeyTree.get_empty] at hne
    cases hne
  simp only [KeyTree.get_cons, Value.ofDictArray, child_nodeFrom_arr, List.map_append]
  cases arrayIndex k with
  | none => exact Iff.rfl
  | some j =>
    simp only [List.getD_eq_getElem?_getD]
    rcases Nat.lt_trichotomy j ds.length with hj | rfl | hj
    · rw [List.getElem?_append_left (by simpa using hj)]
    · refine iff_of_false ?_ ?_
      · simpa using hentry
      · rw [List.getElem?_eq_none (by simp)]
        exact hempty
    · rw [List.getElem?_eq_none (by simp; omega), List.getElem?_eq_none (by simp; omega)]

/-! ## Leaves -/

theorem leaf_of_nodeFrom {v : Value} {a : Leaf} (h : nodeFrom v = .leaf a) : v = .leaf a := by
  cases v <;> cases h
  rfl

theorem not_leaf_empty {r : List String} {a : Leaf} :
    ¬ (KeyTree.empty : FNode).get r = .leaf a := by
  rw [KeyTree.get_empty]; nofun

/-- The leaves of a dictionary of leaves are its fields. -/
theorem get_flat {kvs : List (String × Value)} (hflat : ∀ x ∈ kvs, ∃ a, x.2 = .leaf a)
    {r : List String} {a : Leaf} (h : (nodeFrom (.dict kvs)).get r = .leaf a) :
    ∃ k, r = [k] ∧ find k kvs = some (.leaf a) := by
  cases r with
  | nil => cases h
  | cons k r =>
    rw [KeyTree.get_cons, child_nodeFrom_dict] at h
    cases hk : find k kvs with
    | none =>
      rw [hk] at h
      exact absurd h not_leaf_empty
    | some v =>
      obtain ⟨b, rfl⟩ : ∃ b, v = .leaf b := hflat _ (mem_of_find hk)
      rw [hk] at h
      cases r with
      | nil => cases h; exact ⟨k, rfl, hk⟩
      | cons k' r => exact absurd h not_leaf_empty

theorem get_ofStringDict {d : List (String × String)} {r : List String} {a : Leaf}
    (h : (nodeFrom (.ofStringDict d)).get r = .leaf a) : ∃ k, r = [k] ∧ (find k d).isSome := by
  have hflat : ∀ x ∈ d.map fun x => (x.1, Value.str x.2), ∃ a, x.2 = .leaf a := fun x hx => by
    obtain ⟨y, -, rfl⟩ := List.mem_map.1 hx
    exact ⟨_, rfl⟩
  obtain ⟨k, hr, hk⟩ := get_flat hflat h
  rw [find_map] at hk
  obtain ⟨s, hs, -⟩ := Option.map_eq_some_iff.1 hk
  exact ⟨k, hr, by rw [hs]; rfl⟩

/-- What is at a path into an array is in one of its elements. -/
theorem get_arr {xs : List Value} {r : List String} {a : Leaf}
    (h : (nodeFrom (.arr xs)).get r = .leaf a) :
    ∃ i n r' v, r = i :: r' ∧ arrayIndex i = some n ∧ xs[n]? = some v ∧
      (nodeFrom v).get r' = .leaf a := by
  cases r with
  | nil => cases h
  | cons i r =>
    rw [KeyTree.get_cons, child_nodeFrom_arr] at h
    cases hi : arrayIndex i with
    | none =>
      rw [hi] at h
      exact absurd h not_leaf_empty
    | some n =>
      simp only [hi, List.getD_eq_getElem?_getD] at h
      cases hn : xs[n]? with
      | none =>
        rw [hn] at h
        exact absurd h not_leaf_empty
      | some v =>
        rw [hn] at h
        exact ⟨i, n, r, v, rfl, hi, hn, h⟩

theorem get_ofStringDictArray {ds : List (List (String × String))} {r : List String} {a : Leaf}
    (h : (nodeFrom (.ofStringDictArray ds)).get r = .leaf a) : ∃ i k, r = [i, k] := by
  obtain ⟨i, n, r', v, rfl, -, hn, h⟩ := get_arr h
  obtain ⟨d, -, rfl⟩ := List.mem_map.1 (List.mem_of_getElem? hn)
  obtain ⟨k, rfl, -⟩ := get_ofStringDict h
  exact ⟨i, k, rfl⟩

/-! ## Keys that a value does not have -/

/-- The value has the key at no depth. -/
def Lacks (key : String) (v : Value) : Prop :=
  ∀ r, (nodeFrom v).get (r ++ [key]) = KeyTree.empty

theorem lacks_null (key : String) : Lacks key .null := fun _ => KeyTree.get_empty _

theorem lacks_leaf (key : String) (a : Leaf) : Lacks key (.leaf a) := fun r => by
  cases r <;> exact KeyTree.get_empty _

theorem lacks_dict {key : String} {kvs : List (String × Value)} (hkey : find key kvs = none)
    (h : ∀ x ∈ kvs, Lacks key x.2) : Lacks key (.dict kvs) := fun r => by
  cases r with
  | nil => rw [List.nil_append, KeyTree.get_cons, child_nodeFrom_dict, hkey]; rfl
  | cons k r =>
    rw [List.cons_append, KeyTree.get_cons, child_nodeFrom_dict]
    cases hv : find k kvs with
    | none => exact KeyTree.get_empty _
    | some v => exact h _ (mem_of_find hv) r

theorem lacks_arr {key : String} {xs : List Value} (hkey : arrayIndex key = none)
    (h : ∀ x ∈ xs, Lacks key x) : Lacks key (.arr xs) := fun r => by
  cases r with
  | nil => rw [List.nil_append, KeyTree.get_cons, child_nodeFrom_arr, hkey]; rfl
  | cons k r =>
    rw [List.cons_append, KeyTree.get_cons, child_nodeFrom_arr]
    cases arrayIndex k with
    | none => exact KeyTree.get_empty _
    | some n =>
      simp only [List.getD_eq_getElem?_getD]
      cases hv : xs[n]? with
      | none => exact lacks_null key r
      | some v => exact h v (List.mem_of_getElem? hv) r

end Firebase
