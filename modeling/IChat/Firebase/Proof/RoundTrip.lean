import IChat.Firebase.Snapshot

/-!
# Values survive the tree

* `nodeFrom_val`: a stored tree read as a value and written back is the same tree. So everything
  read is `Canonical` (`canonical_val`).
* `canonical_arr`, `canonical_dict`: arrays without `NSNull` and dictionaries with a key that is
  no index, all of canonical values, are canonical. `canonical_of_arr`, `canonical_of_dict`: their
  elements are.
-/

namespace Firebase

open SortedMap

/-! ## Indices -/

theorem digit_bounds {c : Char} (hc : c.isDigit = true) :
    '0'.toNat ≤ c.toNat ∧ c.toNat ≤ '9'.toNat := by
  simp only [Char.isDigit, Bool.and_eq_true, decide_eq_true_eq, ge_iff_le,
    UInt32.le_iff_toNat_le] at hc
  exact hc

/-- A digit is the numeral of its value. -/
theorem toDigits_digit {c : Char} (hc : c.isDigit = true) :
    c.toNat - '0'.toNat < 10 ∧ Nat.toDigits 10 (c.toNat - '0'.toNat) = [c] := by
  obtain ⟨h0, h9⟩ := digit_bounds hc
  simp only [Char.reduceToNat] at h0 h9 ⊢
  have hlt : c.toNat - 48 < 10 := by omega
  refine ⟨hlt, ?_⟩
  rw [Nat.toDigits_of_lt_base hlt]
  congr 1
  apply Char.toNat_inj.1
  rw [Nat.toNat_digitChar_of_lt_ten hlt]
  omega

/-- Digits after a positive numeral extend it. -/
theorem toDigits_append {cs : List Char} (hcs : ∀ c ∈ cs, c.isDigit = true) {n : Nat} (hn : 0 < n) :
    Nat.toDigits 10 n ++ cs = Nat.toDigits 10 (Nat.ofDigitChars 10 cs n) := by
  induction cs generalizing n with
  | nil => simp
  | cons c cs ih =>
    obtain ⟨hlt, hc⟩ := toDigits_digit (hcs c (.head _))
    have hstep := Nat.toDigits_append_toDigits (by decide : 1 < 10) hn hlt
    rw [hc] at hstep
    rw [Nat.ofDigitChars_cons, ← ih (fun x hx => hcs x (.tail _ hx)) (by omega), ← hstep]
    simp

/-- Digits without leading zero are the numeral of the number they denote. -/
theorem toDigits_ofDigitChars {c : Char} {cs : List Char} (hc : c.isDigit = true) (h0 : c ≠ '0')
    (hcs : ∀ c ∈ cs, c.isDigit = true) :
    c :: cs = Nat.toDigits 10 (Nat.ofDigitChars 10 (c :: cs) 0) := by
  obtain ⟨hlt, hd⟩ := toDigits_digit hc
  obtain ⟨hlo, -⟩ := digit_bounds hc
  have hpos : 0 < c.toNat - '0'.toNat := by
    have : c.toNat ≠ '0'.toNat := fun h => h0 (Char.toNat_inj.1 h)
    omega
  rw [Nat.ofDigitChars_cons, Nat.mul_zero, Nat.zero_add, ← toDigits_append hcs hpos, hd]
  rfl

theorem toString_of_arrayIndex {k : String} {i : Nat} (h : arrayIndex k = some i) :
    k = toString i := by
  unfold arrayIndex intForString at h
  split at h
  · cases h
  rename_i hz
  split at h
  · rename_i hd
    obtain ⟨hne, hd⟩ := hd
    simp only [Option.some.injEq] at h
    simp only [List.all_eq_true] at hd
    apply String.toList_inj.1
    rw [Nat.toString_eq_repr, Nat.toList_repr, ← h]
    cases hk : k.toList with
    | nil => exact absurd (String.toList_inj.1 (by simpa using hk)) hne
    | cons c cs =>
      rw [hk] at hd hz
      by_cases hc : c = '0'
      · have hcs : cs = [] := by
          simp only [List.head?_cons, hc, List.length_cons, true_and] at hz
          exact List.length_eq_zero_iff.1 (by omega)
        subst hc hcs; rfl
      · exact toDigits_ofDigitChars (hd c (.head _)) hc fun x hx => hd x (.tail _ hx)
  · cases h

/-- Only the numeral of 0 starts with a zero. -/
theorem head_toDigits : ∀ i : Nat, (Nat.toDigits 10 i).head? = some '0' → i = 0
  | i, h => by
    by_cases hi : i < 10
    · rw [Nat.toDigits_of_lt_base hi] at h
      simpa using h
    · rw [Nat.toDigits_of_base_le (by decide) (by omega),
        List.head?_append_of_ne_nil _ Nat.toDigits_ne_nil] at h
      have := head_toDigits (i / 10) h
      omega
termination_by i => i

theorem arrayIndex_toString (i : Nat) : arrayIndex (toString i) = some i := by
  have hdigit : (Nat.toDigits 10 i).all Char.isDigit = true :=
    List.all_eq_true.2 fun c hc => Nat.isDigit_of_mem_toDigits (by decide) (by decide) hc
  unfold arrayIndex intForString
  rw [Nat.toString_eq_repr, Nat.toList_repr, if_neg, if_pos ⟨Nat.repr_ne_empty, hdigit⟩,
    Nat.ofDigitChars_ten_toDigits]
  rintro ⟨h0, hl⟩
  rw [head_toDigits i h0] at hl
  exact absurd hl (by decide)

/-- The largest index, when every key is one. -/
theorem maxKey_eq_some {β : Type} {l : List (String × β)} {m : Nat} :
    maxKey l = some m → (∀ x ∈ l, ∃ i ≤ m, arrayIndex x.1 = some i) := by
  induction l generalizing m with
  | nil => intro _ x hx; cases hx
  | cons y l ih =>
    obtain ⟨k, b⟩ := y
    intro h x hx
    obtain ⟨i, hi, h⟩ := Option.bind_eq_some_iff.1 h
    obtain ⟨m', hm', h⟩ := Option.map_eq_some_iff.1 h
    subst h
    rcases List.mem_cons.1 hx with rfl | hx
    · exact ⟨i, Nat.le_max_left _ _, hi⟩
    · obtain ⟨j, hj, hk⟩ := ih hm' x hx
      exact ⟨j, hj.trans (Nat.le_max_right _ _), hk⟩

theorem maxKey_of {β : Type} {l : List (String × β)} {m : Nat}
    (hle : ∀ x ∈ l, ∃ i ≤ m, arrayIndex x.1 = some i) :
    ∃ m' ≤ m, maxKey l = some m' ∧ ∀ x ∈ l, ∀ i, arrayIndex x.1 = some i → i ≤ m' := by
  induction l with
  | nil => exact ⟨0, Nat.zero_le _, rfl, fun x hx => by cases hx⟩
  | cons y l ih =>
    obtain ⟨k, b⟩ := y
    obtain ⟨i, hi, hk⟩ := hle _ (.head _)
    obtain ⟨m', hm', hmax, hall⟩ := ih fun x hx => hle x (.tail _ hx)
    refine ⟨max i m', by omega, by simp only at hk; simp [maxKey, hk, hmax], fun x hx j hj => ?_⟩
    rcases List.mem_cons.1 hx with rfl | hx
    · rw [hk] at hj; cases hj; omega
    · have := hall x hx j hj; omega

theorem maxKey_eq_none {β : Type} {l : List (String × β)} {x : String × β} (hx : x ∈ l)
    (h : arrayIndex x.1 = none) : maxKey l = none := by
  cases hm : maxKey l with
  | none => rfl
  | some m =>
    obtain ⟨i, -, hi⟩ := maxKey_eq_some hm x hx
    rw [h] at hi; cases hi

/-! ## The children of a stored value -/

theorem valChildren_eq (cs : List (String × FNode)) :
    valChildren cs = cs.map fun x => (x.1, val x.2) := by
  induction cs with
  | nil => rfl
  | cons x cs ih => obtain ⟨k, c⟩ := x; simp [valChildren, ih]

theorem val_node (cs : List (String × FNode)) :
    val (.node cs) = exportChildren (cs.map fun x => (x.1, val x.2)) := by
  rw [val, valChildren_eq]

theorem child_dictChildren (kvs : List (String × Value)) (k : String) :
    (KeyTree.node (dictChildren kvs)).child k = nodeFrom ((find k kvs).getD .null) := by
  induction kvs with
  | nil => rfl
  | cons x kvs ih =>
    obtain ⟨k', v⟩ := x
    rw [dictChildren, KeyTree.child_node_put, ih]
    by_cases hk : k = k' <;> simp [find, hk]

theorem child_arrChildren (xs : List Value) (i : Nat) (k : String) :
    (KeyTree.node (arrChildren i xs)).child k =
      match arrayIndex k with
      | some n => if i ≤ n then nodeFrom (xs.getD (n - i) .null) else KeyTree.empty
      | none => KeyTree.empty := by
  induction xs generalizing i with
  | nil =>
    simp only [arrChildren, List.getD_nil, nodeFrom, ite_self]
    cases arrayIndex k <;> rfl
  | cons x xs ih =>
    rw [arrChildren, KeyTree.child_node_put, ih]
    by_cases hk : k = toString i
    · rw [if_pos hk, hk, arrayIndex_toString]
      simp
    · rw [if_neg hk]
      cases hn : arrayIndex k with
      | none => rfl
      | some n =>
        have hne : n ≠ i := by rintro rfl; exact hk (toString_of_arrayIndex hn)
        simp only
        by_cases hle : i + 1 ≤ n
        · rw [if_pos hle, if_pos (by omega), show n - i = n - (i + 1) + 1 by omega,
            List.getD_cons_succ]
        · rw [if_neg hle, if_neg (by omega)]

theorem child_nodeFrom_arr (xs : List Value) (k : String) :
    (nodeFrom (.arr xs)).child k =
      match arrayIndex k with
      | some n => nodeFrom (xs.getD n .null)
      | none => KeyTree.empty := by
  rw [nodeFrom, child_arrChildren]
  cases arrayIndex k <;> simp

theorem child_nodeFrom_dict (kvs : List (String × Value)) (k : String) :
    (nodeFrom (.dict kvs)).child k = nodeFrom ((find k kvs).getD .null) :=
  child_dictChildren kvs k

/-- Induction on values. -/
theorem Value.induct {P : Value → Prop} (null : P .null) (leaf : ∀ a, P (.leaf a))
    (arr : ∀ xs, (∀ x ∈ xs, P x) → P (.arr xs))
    (dict : ∀ kvs : List (String × Value), (∀ x ∈ kvs, P x.2) → P (.dict kvs)) (v : Value) : P v :=
  @Value.rec P (fun xs => ∀ x ∈ xs, P x) (fun kvs => ∀ x ∈ kvs, P x.2) (fun x => P x.2)
    null leaf arr dict
    nofun (fun _ _ h hs => List.forall_mem_cons.2 ⟨h, hs⟩) nofun
    (fun _ _ h hs => List.forall_mem_cons.2 ⟨h, hs⟩) (fun _ _ h => h) v

theorem wf_nodeFrom (v : Value) : (nodeFrom v).WF := by
  induction v using Value.induct with
  | null => exact .empty
  | leaf a => exact .leaf a
  | arr xs ih =>
    have h : ∀ i, (KeyTree.node (arrChildren i xs)).WF := by
      induction xs with
      | nil => exact fun _ => .empty
      | cons x xs ihx =>
        exact fun i => (ihx (fun y hy => ih y (.tail _ hy)) (i + 1)).put _ (ih x (.head _))
    exact h 0
  | dict kvs ih =>
    rw [nodeFrom]
    induction kvs with
    | nil => exact .empty
    | cons x kvs ihx => exact (ihx fun y hy => ih y (.tail _ hy)).put _ (ih x (.head _))

/-! ## Reading and writing back -/

/-- **A stored tree read and written back is the same tree**. -/
theorem nodeFrom_val {n : FNode} (h : n.WF) : nodeFrom (val n) = n := by
  induction h with
  | leaf a => rfl
  | @node cs hs hc hn ih =>
    have hfind : ∀ k, nodeFrom ((find k (cs.map fun x => (x.1, val x.2))).getD .null) =
        (KeyTree.node cs).child k := by
      intro k
      rw [find_map val, KeyTree.child]
      cases hf : find k cs with
      | none => rfl
      | some c => exact ih k c (mem_of_find hf)
    -- either export has the children of the tree
    have hdict : nodeFrom (.dict (cs.map fun x => (x.1, val x.2))) = .node cs := by
      have hw := wf_nodeFrom (.dict (cs.map fun x => (x.1, val x.2)))
      rw [nodeFrom] at hw ⊢
      congr 1
      refine KeyTree.ext_node hw (.node hs hc hn) fun k => ?_
      rw [child_dictChildren, hfind]
    rw [val_node]
    unfold exportChildren
    split
    · rename_i he
      have : cs = [] := by simpa using he
      subst this; rfl
    · split
      · rename_i m hm
        split
        · set xs := (List.range (m + 1)).map fun i =>
            (find (toString i) (cs.map fun x => (x.1, val x.2))).getD .null with hxs
          have hw := wf_nodeFrom (.arr xs)
          have hchild := child_nodeFrom_arr xs
          rw [nodeFrom] at hw hchild ⊢
          congr 1
          refine KeyTree.ext_node hw (.node hs hc hn) fun k => ?_
          rw [hchild, ← hfind]
          have hnone : (∀ i ≤ m, arrayIndex k ≠ some i) →
              find k (cs.map fun x => (x.1, val x.2)) = none := by
            intro hk
            refine find_eq_none.2 fun x hx he => ?_
            obtain ⟨i, hi, hix⟩ := maxKey_eq_some hm x hx
            exact hk i hi (he ▸ hix)
          cases hk : arrayIndex k with
          | none => rw [hnone fun i _ h => by rw [hk] at h; cases h]; rfl
          | some i =>
            simp only
            by_cases hi : i ≤ m
            · have hlt : i < m + 1 := by omega
              simp [List.getD_eq_getElem?_getD, hxs, List.getElem?_range hlt,
                toString_of_arrayIndex hk]
            · have hlen : xs.length ≤ i := by simp [hxs]; omega
              rw [hnone fun j hj h => by rw [hk] at h; cases h; exact hi hj,
                List.getD_eq_getElem?_getD, List.getElem?_eq_none hlen]
        · exact hdict
      · exact hdict

theorem val_inj {n m : FNode} (hn : n.WF) (hm : m.WF) : val n = val m ↔ n = m :=
  ⟨fun h => by rw [← nodeFrom_val hn, h, nodeFrom_val hm], fun h => h ▸ rfl⟩

/-- **What is read is canonical**. -/
theorem canonical_val {n : FNode} (h : n.WF) : Canonical (val n) := by
  rw [Canonical, stored, nodeFrom_val h]

theorem canonical_stored (v : Value) : Canonical (stored v) := canonical_val (wf_nodeFrom v)

/-! ## Canonical values -/

@[simp] theorem stored_null : stored .null = .null := rfl

theorem canonical_null : Canonical .null := rfl

theorem canonical_str (s : String) : Canonical (.str s) := rfl

theorem val_eq_null {n : FNode} : val n = .null ↔ n = KeyTree.empty := by
  refine ⟨fun h => ?_, fun h => h ▸ rfl⟩
  cases n with
  | leaf a => simp [val] at h
  | node cs =>
    rw [val_node] at h
    unfold exportChildren at h
    split at h
    · rename_i he
      have : cs = [] := by simpa using he
      subst this; rfl
    · split at h
      · split at h <;> cases h
      · cases h

theorem Canonical.isEmpty_nodeFrom {v : Value} (h : Canonical v) (hv : v ≠ .null) :
    (nodeFrom v).isEmpty = false := by
  cases he : (nodeFrom v).isEmpty with
  | false => rfl
  | true =>
    refine absurd ?_ hv
    rw [← h, stored, val_eq_null.2 (KeyTree.eq_empty he)]

theorem dictChildren_eq {kvs : List (String × Value)} (hs : Sorted kvs)
    (h : ∀ x ∈ kvs, Canonical x.2 ∧ x.2 ≠ .null) :
    dictChildren kvs = kvs.map fun x => (x.1, nodeFrom x.2) := by
  induction kvs with
  | nil => rfl
  | cons x kvs ih =>
    obtain ⟨k, v⟩ := x
    obtain ⟨hx, hl⟩ := List.pairwise_cons.1 hs
    obtain ⟨hc, hn⟩ := h _ (.head _)
    rw [dictChildren, ih hl fun y hy => h y (.tail _ hy), KeyTree.put,
      if_neg (by simp [hc.isEmpty_nodeFrom hn]), insert_front]
    · rfl
    · intro y hy
      obtain ⟨z, hz, rfl⟩ := List.mem_map.1 hy
      exact hx z hz

/-- A dictionary with a key that is no index. -/
theorem canonical_dict {kvs : List (String × Value)} (hs : Sorted kvs)
    (h : ∀ x ∈ kvs, Canonical x.2 ∧ x.2 ≠ .null) (hk : ∃ x ∈ kvs, arrayIndex x.1 = none) :
    Canonical (.dict kvs) := by
  obtain ⟨x, hx, hxk⟩ := hk
  have hval : (kvs.map fun x => (x.1, nodeFrom x.2)).map (fun x => (x.1, val x.2)) = kvs := by
    rw [List.map_map]
    calc kvs.map ((fun x => (x.1, val x.2)) ∘ fun x => (x.1, nodeFrom x.2))
        = kvs.map id := List.map_congr_left fun y hy => Prod.ext rfl (h y hy).1
      _ = kvs := List.map_id kvs
  have hne : kvs.isEmpty = false := by cases kvs with
    | nil => cases hx
    | cons => rfl
  rw [Canonical, stored, nodeFrom, dictChildren_eq hs h, val_node, hval, exportChildren,
    maxKey_eq_none hx hxk]
  simp [hne]

theorem KeyTree.mem_put {k : String} {c : FNode} {cs : List (String × FNode)} {x : String × FNode}
    (h : x ∈ KeyTree.put k c cs) : x = (k, c) ∨ x ∈ cs := by
  unfold KeyTree.put at h
  split at h
  · exact .inr (mem_erase h)
  · exact mem_insert h

theorem arrChildren_keys {xs : List Value} {i : Nat} {x : String × FNode}
    (h : x ∈ arrChildren i xs) : ∃ n, i ≤ n ∧ n < i + xs.length ∧ arrayIndex x.1 = some n := by
  induction xs generalizing i with
  | nil => cases h
  | cons y xs ih =>
    rw [arrChildren] at h
    rcases KeyTree.mem_put h with rfl | h
    · exact ⟨i, Nat.le_refl _, by simp, arrayIndex_toString i⟩
    · obtain ⟨n, h1, h2, h3⟩ := ih h
      exact ⟨n, by omega, by simp only [List.length_cons]; omega, h3⟩

theorem length_arrChildren {xs : List Value} (h : ∀ x ∈ xs, Canonical x ∧ x ≠ .null) (i : Nat) :
    (arrChildren i xs).length = xs.length := by
  induction xs generalizing i with
  | nil => rfl
  | cons x xs ih =>
    obtain ⟨hc, hn⟩ := h x (.head _)
    have hnew : find (toString i) (arrChildren (i + 1) xs) = none := by
      refine find_eq_none.2 fun y hy he => ?_
      obtain ⟨n, hle, -, hk⟩ := arrChildren_keys hy
      rw [he, arrayIndex_toString] at hk
      cases hk
      omega
    rw [arrChildren, KeyTree.put, if_neg (by simp [hc.isEmpty_nodeFrom hn]), length_insert hnew,
      ih fun y hy => h y (.tail _ hy)]
    rfl

/-- **A dense array reads back as the same array**. -/
theorem canonical_arr {xs : List Value} (hne : xs ≠ [])
    (h : ∀ x ∈ xs, Canonical x ∧ x ≠ .null) : Canonical (.arr xs) := by
  have hpos := List.length_pos_of_ne_nil hne
  set obj := (arrChildren 0 xs).map fun x => (x.1, val x.2) with hobj
  have hlen : obj.length = xs.length := by rw [hobj, List.length_map, length_arrChildren h]
  have hget : ∀ i (hi : i < xs.length), find (toString i) obj = some xs[i] := by
    intro i hi
    obtain ⟨hc, hn⟩ := h xs[i] (List.getElem_mem hi)
    have hch := child_arrChildren xs 0 (toString i)
    simp only [arrayIndex_toString, Nat.zero_le, ↓reduceIte, Nat.sub_zero,
      List.getD_eq_getElem?_getD, List.getElem?_eq_getElem hi, Option.getD_some, KeyTree.child]
      at hch
    rw [hobj, find_map val]
    cases hf : find (toString i) (arrChildren 0 xs) with
    | none =>
      rw [hf] at hch
      have := hc.isEmpty_nodeFrom hn
      rw [← hch] at this; cases this
    | some c =>
      rw [hf] at hch
      simp only [Option.getD_some] at hch
      rw [hch]
      exact congrArg some hc
  obtain ⟨m, hm, hmax, hall⟩ := maxKey_of (l := obj) (m := xs.length - 1) fun x hx => by
    obtain ⟨y, hy, rfl⟩ := List.mem_map.1 hx
    obtain ⟨n, -, hn, hk⟩ := arrChildren_keys hy
    exact ⟨n, by omega, hk⟩
  have hlast : xs.length - 1 ≤ m :=
    hall _ (mem_of_find (hget (xs.length - 1) (by omega))) _ (arrayIndex_toString _)
  have hmeq : m + 1 = xs.length := by omega
  rw [Canonical, stored, nodeFrom, val_node, ← hobj, exportChildren, hmax]
  simp only [List.isEmpty_iff, List.length_eq_zero_iff.symm, hlen, hmeq]
  rw [if_neg (by omega), if_pos (by omega)]
  congr 1
  refine List.ext_getElem (by simp) fun i h1 h2 => ?_
  simp only [List.getElem_map, List.getElem_range, hget i h2, Option.getD_some]

/-- The elements of an array that was read were read. -/
theorem canonical_of_arr {xs : List Value} (h : Canonical (.arr xs)) {x : Value} (hx : x ∈ xs) :
    Canonical x := by
  have hw := wf_nodeFrom (.arr xs)
  rw [Canonical, stored] at h
  generalize nodeFrom (.arr xs) = n at h hw
  cases hw with
  | leaf a => simp [val] at h
  | @node cs hs hc hn =>
    rw [val_node] at h
    unfold exportChildren at h
    split at h
    · cases h
    · split at h
      · split at h
        · simp only [Value.arr.injEq] at h
          subst h
          obtain ⟨i, -, rfl⟩ := List.mem_map.1 hx
          rw [find_map val]
          cases hf : find (toString i) cs with
          | none => exact canonical_null
          | some c => exact canonical_val (hc _ c (mem_of_find hf))
        · cases h
      · cases h

/-- A dictionary that was read: its keys are in order, its values were read and are not null. -/
theorem canonical_of_dict {kvs : List (String × Value)} (h : Canonical (.dict kvs)) :
    Sorted kvs ∧ ∀ x ∈ kvs, Canonical x.2 ∧ x.2 ≠ .null := by
  have hw := wf_nodeFrom (.dict kvs)
  rw [Canonical, stored] at h
  generalize nodeFrom (.dict kvs) = n at h hw
  cases hw with
  | leaf a => simp [val] at h
  | @node cs hs hc hn =>
    have hkvs : kvs = cs.map fun x => (x.1, val x.2) := by
      rw [val_node] at h
      unfold exportChildren at h
      split at h
      · cases h
      · split at h
        · split at h
          · cases h
          · exact (Value.dict.inj h).symm
        · exact (Value.dict.inj h).symm
    rw [hkvs]
    refine ⟨hs.map val, fun x hx => ?_⟩
    obtain ⟨y, hy, rfl⟩ := List.mem_map.1 hx
    refine ⟨canonical_val (hc _ _ hy), fun hnull => ?_⟩
    have := hn _ _ hy
    rw [val_eq_null.1 hnull] at this
    cases this

/-! ## Collections -/

/-- A dictionary that was read, with one more entry, when it has a key that is no index. -/
theorem canonical_insert {kvs : List (String × Value)} (h : Canonical (.dict kvs)) {k : String}
    {v : Value} (hv : Canonical v) (hn : v ≠ .null) (hk : arrayIndex k = none) :
    Canonical (.dict (insert k v kvs)) := by
  obtain ⟨hs, hall⟩ := canonical_of_dict h
  refine canonical_dict (hs.insert k v) (fun x hx => ?_)
    ⟨(k, v), mem_of_find (find_insert_self k v kvs), hk⟩
  rcases mem_insert hx with rfl | hx
  · exact ⟨hv, hn⟩
  · exact hall x hx

/-- A dictionary literal whose first key is no index. -/
theorem canonical_ofList {l : List (String × Value)} {k : String} {v : Value}
    (h : ∀ x ∈ (k, v) :: l, Canonical x.2 ∧ x.2 ≠ .null) (hk : arrayIndex k = none) :
    Canonical (.dict (ofList ((k, v) :: l))) :=
  canonical_dict (sorted_ofList _) (fun x hx => h x (mem_ofList hx))
    ⟨(k, v), mem_of_find (find_insert_self k v _), hk⟩

theorem canonical_ofStringDict {d : List (String × String)} (hs : Sorted d)
    (hk : ∃ x ∈ d, arrayIndex x.1 = none) : Canonical (.ofStringDict d) := by
  obtain ⟨x, hx, hk⟩ := hk
  refine canonical_dict (hs.map Value.str) (fun y hy => ?_) ⟨_, List.mem_map_of_mem hx, hk⟩
  obtain ⟨z, -, rfl⟩ := List.mem_map.1 hy
  exact ⟨canonical_str z.2, nofun⟩

theorem canonical_concat {xs : List Value} (h : ∀ x ∈ xs, Canonical x ∧ x ≠ .null) {e : Value}
    (he : Canonical e) (hn : e ≠ .null) : Canonical (.arr (xs ++ [e])) := by
  refine canonical_arr (by simp) fun x hx => ?_
  rcases List.mem_append.1 hx with hx | hx
  · exact h x hx
  · rw [List.mem_singleton.1 hx]; exact ⟨he, hn⟩

/-- An array of dictionaries that was read, with one more entry. -/
theorem canonical_append {v : Value} (hv : Canonical v) {e : List (String × Value)}
    (he : Canonical (.dict e)) : Canonical (.ofDictArray (v.asDictArray.getD [] ++ [e])) := by
  rw [Value.ofDictArray, List.map_append]
  refine canonical_concat (fun x hx => ?_) he fun h => by cases h
  obtain ⟨d, hd, rfl⟩ := List.mem_map.1 hx
  cases hc : v.asDictArray with
  | none => rw [hc] at hd; cases hd
  | some ds =>
    rw [Value.asDictArray_eq_some.1 hc] at hv
    rw [hc] at hd
    exact ⟨canonical_of_arr hv (List.mem_map_of_mem hd), fun h => by cases h⟩

/-- An array of string dictionaries that was read, with one more entry. -/
theorem canonical_append_string {v : Value} (hv : Canonical v) {e : List (String × String)}
    (he : Canonical (.ofStringDict e)) :
    Canonical (.ofStringDictArray (v.asStringDictArray.getD [] ++ [e])) := by
  rw [Value.ofStringDictArray, List.map_append]
  refine canonical_concat (fun x hx => ?_) he fun h => by cases h
  obtain ⟨d, hd, rfl⟩ := List.mem_map.1 hx
  cases hc : v.asStringDictArray with
  | none => rw [hc] at hd; cases hd
  | some ds =>
    rw [Value.asStringDictArray_eq_some.1 hc] at hv
    rw [hc] at hd
    exact ⟨canonical_of_arr hv (List.mem_map_of_mem hd), fun h => by cases h⟩

end Firebase
