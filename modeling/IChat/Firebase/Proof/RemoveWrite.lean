import IChat.Firebase.Proof.CompoundWrite

/-!
# Removing writes from compound writes

`removeWriteAtPath` undoes `addWrite` when nothing else was written at, above or below the path
(`removeWrite_addWrite`). Writes at paths apart commute as compound writes (`addWrite_comm`,
`removeWrite_addWrite_comm`), and a write hides the earlier ones at its path and below
(`addWrite_hides`).
-/

open SortedMap KeyTree ImmutableTree

namespace Firebase

namespace CompoundWrite

/-! ## Level by level -/

@[simp] theorem removeWriteAtPath_nil (c : CompoundWrite) : removeWriteAtPath c [] = emptyWrite :=
  rfl

theorem removeWriteAtPath_eq (c : CompoundWrite) (p : Path) :
    removeWriteAtPath c p = setTree ImmutableTree.empty c p := by
  cases p <;> rfl

theorem removeWriteAtPath_empty (p : Path) :
    removeWriteAtPath ImmutableTree.empty p = ImmutableTree.empty := by
  rw [removeWriteAtPath_eq]
  induction p with
  | nil => rfl
  | cons k p ih => rw [setTree_cons, ImmutableTree.child_empty, ih]; rfl

/-- A write below a node with a value is not removed from the value. -/
theorem removeWriteAtPath_initWithValue (v : FNode) (k : String) (p : Path) :
    removeWriteAtPath (initWithValue v) (k :: p) = initWithValue v := by
  rw [removeWriteAtPath_eq, setTree_cons, child_initWithValue, ← removeWriteAtPath_eq,
    removeWriteAtPath_empty]
  rfl

theorem removeWriteAtPath_children (cs : List (String × CompoundWrite)) (k : String) (p : Path) :
    removeWriteAtPath (.mk none cs) (k :: p) =
      .mk none (ImmutableTree.put k
        (removeWriteAtPath ((ImmutableTree.mk none cs).child k) p) cs) := by
  rw [removeWriteAtPath_eq, setTree_cons, removeWriteAtPath_eq]
  rfl

/-- **Removing keeps compound writes well-formed**. -/
theorem WF.removeWriteAtPath {c : CompoundWrite} (h : WF c) (p : Path) :
    WF (removeWriteAtPath c p) := by
  induction p generalizing c with
  | nil => exact .empty
  | cons k p ih =>
    cases h with
    | root hv => rw [removeWriteAtPath_initWithValue]; exact .root hv
    | @children cs hs hw hwr =>
      have hc := WF.children hs hw hwr
      rw [removeWriteAtPath_children]
      refine hc.put k (ih (hc.child k)) fun hne => ⟨hne, fun node hv => ?_⟩
      -- a value that is still there was there, and stores something
      cases p with
      | nil => cases hv
      | cons j p =>
        cases hd : (ImmutableTree.mk none cs).child k with
        | mk w ds =>
          rw [hd, removeWriteAtPath_eq, setTree_cons, value_mk, value_mk] at hv
          rw [child_mk] at hd
          cases hf : find k cs with
          | none =>
            rw [hf] at hd
            cases hd
            cases hv
          | some d =>
            rw [hf] at hd
            exact (hwr k d (mem_of_find hf)).2 node (by rw [show d = _ from hd]; exact hv)

/-! ## Two writes -/

/-- **Writes apart commute**. -/
theorem addWrite_comm {c : CompoundWrite} (h : WF c) {v w : FNode} (hv : v.WF ∧ v.isEmpty = false)
    (hw : w.WF ∧ w.isEmpty = false) {p q : Path} (hpq : Apart p q) :
    addWrite (addWrite c v p) w q = addWrite (addWrite c w q) v p := by
  induction p generalizing c q with
  | nil => cases hpq
  | cons a p ih =>
    cases q with
    | nil => cases hpq
    | cons b q =>
      cases h with
      | root hu =>
        simp only [addWrite_initWithValue]
        rw [set_comm hu hv.1 hw.1 hpq]
      | @children cs hs hwf hwr =>
        have hc := WF.children hs hwf hwr
        have hcv := hc.addWrite hv.1 hv.2 (a :: p)
        have hcw := hc.addWrite hw.1 hw.2 (b :: q)
        rw [addWrite_children hc] at hcv hcw ⊢
        rw [addWrite_children hcv, addWrite_children hc, addWrite_children hcw, child_put, child_put]
        by_cases hab : a = b
        · subst hab
          have hap := hpq.resolve_left fun hne => hne rfl
          simp only [↓reduceIte]
          rw [put_put hs, put_put hs, ih (hc.child a) hap]
        · simp only [hab, Ne.symm hab, ↓reduceIte]
          rw [put_comm hs hab]

/-- **A write hides the earlier ones** at its path and below. -/
theorem addWrite_hides {c : CompoundWrite} (h : WF c) {v w : FNode} (hv : v.WF ∧ v.isEmpty = false)
    (hw : w.WF ∧ w.isEmpty = false) (q r : Path) :
    addWrite (addWrite c v (q ++ r)) w q = addWrite c w q := by
  induction q generalizing c with
  | nil => rfl
  | cons k q ih =>
    cases h with
    | root hu =>
      simp only [addWrite_initWithValue]
      rw [set_append_set hu hv.1 hw.1 hw.2]
    | @children cs hs hwf hwr =>
      have hc := WF.children hs hwf hwr
      have hcv := hc.addWrite hv.1 hv.2 (k :: q ++ r)
      rw [List.cons_append, addWrite_children hc] at hcv ⊢
      rw [addWrite_children hcv, addWrite_children hc, child_put, if_pos rfl, put_put hs,
        ih (hc.child k)]

/-- A write below an earlier one goes into what was written. -/
theorem addWrite_below {c : CompoundWrite} (h : WF c) {v w : FNode} (hv : v.WF ∧ v.isEmpty = false)
    (hw : w.WF ∧ w.isEmpty = false) (p r : Path) :
    addWrite (addWrite c v p) w (p ++ r) = addWrite c (v.set r w) p := by
  induction p generalizing c with
  | nil => exact addWrite_initWithValue v w r
  | cons k p ih =>
    cases h with
    | root hu =>
      simp only [addWrite_initWithValue]
      rw [set_set_append hu hv.1 hw.1 hw.2]
    | @children cs hs hwf hwr =>
      have hc := WF.children hs hwf hwr
      have hcv := hc.addWrite hv.1 hv.2 (k :: p)
      rw [addWrite_children hc] at hcv ⊢
      rw [List.cons_append, addWrite_children hcv, addWrite_children hc, child_put, if_pos rfl,
        put_put hs, ih (hc.child k)]

/-- A removal commutes with a write apart from it. -/
theorem removeWrite_addWrite_comm {c : CompoundWrite} (h : WF c) (w : FNode) {p q : Path}
    (hpq : Apart p q) :
    removeWriteAtPath (addWrite c w q) p = addWrite (removeWriteAtPath c p) w q := by
  induction p generalizing c q with
  | nil => cases hpq
  | cons a p ih =>
    cases q with
    | nil => cases hpq
    | cons b q =>
      cases h with
      | root hu =>
        simp only [addWrite_initWithValue, removeWriteAtPath_initWithValue]
      | @children cs hs hwf hwr =>
        have hc := WF.children hs hwf hwr
        have hr := hc.removeWriteAtPath (a :: p)
        rw [removeWriteAtPath_children] at hr
        rw [addWrite_children hc, removeWriteAtPath_children, removeWriteAtPath_children,
          addWrite_children hr, child_put, child_put]
        by_cases hab : a = b
        · subst hab
          have hap := hpq.resolve_left fun hne => hne rfl
          simp only [↓reduceIte]
          rw [put_put hs, put_put hs, ih (hc.child a) hap]
        · simp only [hab, Ne.symm hab, ↓reduceIte]
          rw [put_comm hs (Ne.symm hab)]

/-- **Removing undoes adding** where nothing else was written at, above or below the path. -/
theorem removeWrite_addWrite {c : CompoundWrite} (h : WF c) (v : FNode) {p : Path}
    (hp : (childCompoundWriteAtPath c p).isEmpty = true) :
    removeWriteAtPath (addWrite c v p) p = c := by
  induction p generalizing c with
  | nil => exact (eq_empty hp).symm
  | cons k p ih =>
    cases h with
    | root hu => rw [childCompoundWriteAtPath_initWithValue] at hp; cases hp
    | @children cs hs hwf hwr =>
      have hc := WF.children hs hwf hwr
      rw [childCompoundWriteAtPath_children hc] at hp
      rw [addWrite_children hc, removeWriteAtPath_children, child_put, if_pos rfl, put_put hs,
        ih (hc.child k) hp, put_child hs fun k c hm => (hwr k c hm).1]

/-- A write shows nothing at paths apart from it. -/
theorem childCompoundWriteAtPath_addWrite {c : CompoundWrite} (h : WF c) {w : FNode}
    (hw : w.WF ∧ w.isEmpty = false) {p q : Path} (hpq : Apart q p) :
    childCompoundWriteAtPath (addWrite c w q) p = childCompoundWriteAtPath c p := by
  induction q generalizing c p with
  | nil => cases hpq
  | cons b q ih =>
    cases p with
    | nil => cases hpq
    | cons a p =>
      cases h with
      | @root u hu =>
        rw [addWrite_initWithValue, childCompoundWriteAtPath_initWithValue,
          childCompoundWriteAtPath_initWithValue, get_set_apart hpq]
      | @children cs hs hwf hwr =>
        have hc := WF.children hs hwf hwr
        have hcw := hc.addWrite hw.1 hw.2 (b :: q)
        rw [addWrite_children hc] at hcw ⊢
        rw [childCompoundWriteAtPath_children hcw, childCompoundWriteAtPath_children hc, child_put]
        split
        · rename_i hab
          subst hab
          exact ih (hc.child a) (hpq.resolve_left fun hne => hne rfl)
        · rfl

/-- Seen from above its path, a write is a write below. -/
theorem childCompoundWriteAtPath_addWrite_below {c : CompoundWrite} (h : WF c) {w : FNode}
    (hw : w.WF ∧ w.isEmpty = false) (p r : Path) :
    childCompoundWriteAtPath (addWrite c w (p ++ r)) p =
      addWrite (childCompoundWriteAtPath c p) w r := by
  induction p generalizing c with
  | nil => rfl
  | cons k p ih =>
    cases h with
    | @root u hu =>
      rw [addWrite_initWithValue, childCompoundWriteAtPath_initWithValue,
        childCompoundWriteAtPath_initWithValue, addWrite_initWithValue, get_set_append]
    | @children cs hs hwf hwr =>
      have hc := WF.children hs hwf hwr
      have hcw := hc.addWrite hw.1 hw.2 (k :: p ++ r)
      rw [List.cons_append, addWrite_children hc] at hcw ⊢
      rw [childCompoundWriteAtPath_children hcw, childCompoundWriteAtPath_children hc, child_put,
        if_pos rfl, ih (hc.child k)]

/-- Seen from its path or below, a write is all there is. -/
theorem childCompoundWriteAtPath_addWrite_above {c : CompoundWrite} (h : WF c) {w : FNode}
    (hw : w.WF ∧ w.isEmpty = false) (q r : Path) :
    childCompoundWriteAtPath (addWrite c w q) (q ++ r) = initWithValue (w.get r) := by
  induction q generalizing c with
  | nil => exact childCompoundWriteAtPath_initWithValue w r
  | cons k q ih =>
    cases h with
    | @root u hu =>
      rw [addWrite_initWithValue, childCompoundWriteAtPath_initWithValue, get_append, get_set_self]
    | @children cs hs hwf hwr =>
      have hc := WF.children hs hwf hwr
      have hcw := hc.addWrite hw.1 hw.2 (k :: q)
      rw [addWrite_children hc] at hcw ⊢
      rw [List.cons_append, childCompoundWriteAtPath_children hcw, child_put, if_pos rfl,
        ih (hc.child k)]

/-- The compound write with a list of writes added, the first one first. -/
def addWrites (c : CompoundWrite) (ws : List (Path × FNode)) : CompoundWrite :=
  ws.foldl (fun c w => addWrite c w.2 w.1) c

/-- The compound write with what was written at some paths removed. -/
def removeWrites (c : CompoundWrite) (ps : List Path) : CompoundWrite :=
  ps.foldl removeWriteAtPath c

@[simp] theorem addWrites_nil (c : CompoundWrite) : addWrites c [] = c := rfl

@[simp] theorem addWrites_cons (c : CompoundWrite) (w : Path × FNode) (ws : List (Path × FNode)) :
    addWrites c (w :: ws) = addWrites (addWrite c w.2 w.1) ws := rfl

theorem addWrites_append (c : CompoundWrite) (ws ws' : List (Path × FNode)) :
    addWrites c (ws ++ ws') = addWrites (addWrites c ws) ws' := List.foldl_append

theorem WF.addWrites {c : CompoundWrite} (h : WF c) {ws : List (Path × FNode)}
    (hws : ∀ w ∈ ws, Stores w) : WF (addWrites c ws) :=
  (applyToNode_foldl_addWrite h KeyTree.WF.empty hws).1

/-- **A compound write made of writes replays them**. -/
theorem applyToNode_addWrites {c : CompoundWrite} (h : WF c) {n : FNode} (hn : n.WF)
    {ws : List (Path × FNode)} (hws : ∀ w ∈ ws, Stores w) :
    applyToNode (addWrites c ws) n = (applyToNode c n).replay ws :=
  (applyToNode_foldl_addWrite h hn hws).2

theorem removeWrite_addWrites_comm {c : CompoundWrite} (h : WF c) {p : Path}
    {ws : List (Path × FNode)} (hws : ∀ w ∈ ws, Stores w ∧ Apart p w.1) :
    removeWriteAtPath (addWrites c ws) p = addWrites (removeWriteAtPath c p) ws := by
  induction ws generalizing c with
  | nil => rfl
  | cons w ws ih =>
    have hw := hws w (.head _)
    rw [addWrites_cons, ih (h.addWrite hw.1.1 hw.1.2 w.1) fun w' hw' => hws w' (.tail _ hw'),
      removeWrite_addWrite_comm h w.2 hw.2]
    rfl

theorem removeWrites_addWrites_comm {c : CompoundWrite} (h : WF c) {ps : List Path}
    {ws : List (Path × FNode)} (hws : ∀ w ∈ ws, Stores w ∧ ∀ p ∈ ps, Apart p w.1) :
    removeWrites (addWrites c ws) ps = addWrites (removeWrites c ps) ws := by
  induction ps generalizing c with
  | nil => rfl
  | cons p ps ih =>
    have hp : ∀ w ∈ ws, Stores w ∧ Apart p w.1 := fun w hw => ⟨(hws w hw).1, (hws w hw).2 p (.head _)⟩
    show removeWrites (removeWriteAtPath (addWrites c ws) p) ps = _
    rw [removeWrite_addWrites_comm h hp, ih (h.removeWriteAtPath p) fun w hw =>
      ⟨(hws w hw).1, fun p' hp' => (hws w hw).2 p' (.tail _ hp')⟩]
    rfl

theorem childCompoundWriteAtPath_addWrites {c : CompoundWrite} (h : WF c) {p : Path}
    {ws : List (Path × FNode)} (hws : ∀ w ∈ ws, Stores w ∧ Apart w.1 p) :
    childCompoundWriteAtPath (addWrites c ws) p = childCompoundWriteAtPath c p := by
  induction ws generalizing c with
  | nil => rfl
  | cons w ws ih =>
    have hw := hws w (.head _)
    rw [addWrites_cons, ih (h.addWrite hw.1.1 hw.1.2 w.1) fun w' hw' => hws w' (.tail _ hw'),
      childCompoundWriteAtPath_addWrite h hw.1 hw.2]

/-- **Removing a group of writes undoes adding it** when its paths are apart from each other and
from everything written before. -/
theorem removeWrites_addWrites {c : CompoundWrite} (h : WF c) {ws : List (Path × FNode)}
    (hws : ∀ w ∈ ws, Stores w ∧ (childCompoundWriteAtPath c w.1).isEmpty = true)
    (hapart : ws.Pairwise fun w w' => Apart w.1 w'.1) :
    removeWrites (addWrites c ws) (ws.map (·.1)) = c := by
  induction ws generalizing c with
  | nil => rfl
  | cons w ws ih =>
    obtain ⟨hw, hrest⟩ := List.pairwise_cons.1 hapart
    have hst := hws w (.head _)
    have hcomm : ∀ w' ∈ ws, Stores w' ∧ Apart w.1 w'.1 := fun w' hw' =>
      ⟨(hws w' (.tail _ hw')).1, hw w' hw'⟩
    show removeWrites (removeWriteAtPath (addWrites (addWrite c w.2 w.1) ws) w.1) (ws.map (·.1)) = c
    rw [removeWrite_addWrites_comm (h.addWrite hst.1.1 hst.1.2 w.1) hcomm,
      removeWrite_addWrite h w.2 hst.2]
    exact ih h (fun w' hw' => hws w' (.tail _ hw')) hrest

/-- A write that no later one hides can be made last, with what the later ones wrote into it. -/
theorem addWrites_addWrite {c : CompoundWrite} (h : WF c) {p : Path} {w : FNode}
    (hw : w.WF ∧ w.isEmpty = false) {ws : List (Path × FNode)}
    (hws : ∀ x ∈ ws, Stores x ∧ ¬ x.1 <+: p) :
    ∃ w' : FNode, (w'.WF ∧ w'.isEmpty = false) ∧
      addWrites (addWrite c w p) ws = addWrite (addWrites c ws) w' p := by
  induction ws generalizing c w with
  | nil => exact ⟨w, hw, rfl⟩
  | cons x ws ih =>
    have hx := hws x (.head _)
    have hrest : ∀ y ∈ ws, Stores y ∧ ¬ y.1 <+: p := fun y hy => hws y (.tail _ hy)
    have hcx := h.addWrite hx.1.1 hx.1.2 x.1
    rw [addWrites_cons, addWrites_cons]
    rcases apart_or_prefix p x.1 with hpx | ⟨r, hr⟩ | hxp
    · rw [addWrite_comm h hw hx.1 hpx]
      exact ih hcx hw hrest
    · have hset : (w.set r x.2).WF ∧ (w.set r x.2).isEmpty = false :=
        ⟨hw.1.set r hx.1.1, isEmpty_set hx.1.2⟩
      rw [← hr] at hcx ⊢
      rw [addWrite_below h hw hx.1, ← addWrite_hides h hx.1 hset p r]
      exact ih hcx hset hrest
    · exact absurd hxp hx.2

/-- A path is overwritten completely by a write at it or above. -/
theorem isSome_completeNodeAtPath_of_addWrites {c : CompoundWrite} (h : WF c) {p : Path}
    {ws : List (Path × FNode)} (hws : ∀ x ∈ ws, Stores x)
    (hp : (completeNodeAtPath (addWrites c ws) p).isSome = true) :
    (completeNodeAtPath c p).isSome = true ∨ ∃ x ∈ ws, x.1 <+: p := by
  induction ws generalizing c with
  | nil => exact .inl hp
  | cons x ws ih =>
    have hx := hws x (.head _)
    have hcx := h.addWrite hx.1 hx.2 x.1
    rcases ih hcx (fun y hy => hws y (.tail _ hy)) hp with hc | ⟨y, hy, hyp⟩
    · by_cases hxp : x.1 <+: p
      · exact .inr ⟨x, .head _, hxp⟩
      · left
        rw [← value_childCompoundWriteAtPath hcx] at hc
        rw [← value_childCompoundWriteAtPath h]
        rcases apart_or_prefix x.1 p with hap | hxp' | ⟨r, hr⟩
        · rwa [childCompoundWriteAtPath_addWrite h hx hap] at hc
        · exact absurd hxp' hxp
        · cases r with
          | nil => exact absurd ⟨[], by rw [List.append_nil, ← hr, List.append_nil]⟩ hxp
          | cons k r =>
            rwa [← hr, childCompoundWriteAtPath_addWrite_below h hx,
              value_addWrite_cons (h.childCompoundWriteAtPath p), Option.isSome_map] at hc
    · exact .inr ⟨y, .tail _ hy, hyp⟩

/-- Writes look the same from a path when one of them is at it or above, whatever was there. -/
theorem childCompoundWriteAtPath_addWrites_congr {c c' : CompoundWrite} (h : WF c) (h' : WF c')
    {p : Path} {ws : List (Path × FNode)} (hws : ∀ x ∈ ws, Stores x)
    (hor : childCompoundWriteAtPath c p = childCompoundWriteAtPath c' p ∨ ∃ x ∈ ws, x.1 <+: p) :
    childCompoundWriteAtPath (addWrites c ws) p = childCompoundWriteAtPath (addWrites c' ws) p := by
  induction ws generalizing c c' with
  | nil => exact hor.resolve_right fun ⟨x, hx, _⟩ => by cases hx
  | cons x ws ih =>
    have hx := hws x (.head _)
    refine ih (h.addWrite hx.1 hx.2 x.1) (h'.addWrite hx.1 hx.2 x.1)
      (fun y hy => hws y (.tail _ hy)) ?_
    show childCompoundWriteAtPath (addWrite c x.2 x.1) p =
      childCompoundWriteAtPath (addWrite c' x.2 x.1) p ∨ ∃ y ∈ ws, y.1 <+: p
    by_cases hxp : x.1 <+: p
    · obtain ⟨r, hr⟩ := hxp
      left
      rw [← hr, childCompoundWriteAtPath_addWrite_above h hx,
        childCompoundWriteAtPath_addWrite_above h' hx]
    · rcases hor with heq | ⟨y, hy, hyp⟩
      · left
        rcases apart_or_prefix x.1 p with hap | hxp' | ⟨r, hr⟩
        · rw [childCompoundWriteAtPath_addWrite h hx hap,
            childCompoundWriteAtPath_addWrite h' hx hap, heq]
        · exact absurd hxp' hxp
        · rw [← hr, childCompoundWriteAtPath_addWrite_below h hx,
            childCompoundWriteAtPath_addWrite_below h' hx, heq]
      · rcases List.mem_cons.1 hy with rfl | hy
        · exact absurd hyp hxp
        · exact .inr ⟨y, hy, hyp⟩

/-! ## What a later write hides -/

/-- Compound writes that any write at or above `p` makes equal. -/
def EqAbove (p : Path) (c c' : CompoundWrite) : Prop :=
  ∀ q, q <+: p → ∀ w : FNode, w.WF ∧ w.isEmpty = false → addWrite c w q = addWrite c' w q

theorem eqAbove_addWrites {c : CompoundWrite} (h : WF c) {p : Path} {ws : List (Path × FNode)}
    (hws : ∀ w ∈ ws, Stores w ∧ p <+: w.1) : EqAbove p (addWrites c ws) c := by
  intro q hq w hw
  induction ws generalizing c with
  | nil => rfl
  | cons x ws ih =>
    have hx := hws x (.head _)
    obtain ⟨r, hr⟩ := hq.trans hx.2
    rw [addWrites_cons, ih (h.addWrite hx.1.1 hx.1.2 x.1) fun w' hw' => hws w' (.tail _ hw'), ← hr,
      addWrite_hides h hx.1 hw]

/-- What is hidden stays hidden under later writes. -/
theorem EqAbove.addWrite {p : Path} {c c' : CompoundWrite} (he : EqAbove p c c') (h : WF c)
    (h' : WF c') {x : Path × FNode} (hx : Stores x) :
    EqAbove p (addWrite c x.2 x.1) (addWrite c' x.2 x.1) := by
  intro q hq w hw
  rcases apart_or_prefix x.1 q with hxq | hxq | hqx
  · rw [addWrite_comm h hx hw hxq, addWrite_comm h' hx hw hxq, he q hq w hw]
  · rw [he x.1 (hxq.trans hq) x.2 hx]
  · obtain ⟨r, hr⟩ := hqx
    rw [← hr, addWrite_hides h hx hw, addWrite_hides h' hx hw, he q hq w hw]

/-- A write at or above `p` among later writes leaves no difference. -/
theorem EqAbove.addWrites {p : Path} {c c' : CompoundWrite} (he : EqAbove p c c') (h : WF c)
    (h' : WF c') {ws : List (Path × FNode)} (hws : ∀ w ∈ ws, Stores w)
    (hcover : ∃ w ∈ ws, w.1 <+: p) : CompoundWrite.addWrites c ws = CompoundWrite.addWrites c' ws := by
  induction ws generalizing c c' with
  | nil => obtain ⟨w, hw, -⟩ := hcover; cases hw
  | cons x ws ih =>
    have hx := hws x (.head _)
    rw [addWrites_cons, addWrites_cons]
    by_cases hxp : x.1 <+: p
    · rw [he x.1 hxp x.2 hx]
    · obtain ⟨w, hw, hwp⟩ := hcover
      have hw' : w ∈ ws := by
        rcases List.mem_cons.1 hw with rfl | hw
        · exact absurd hwp hxp
        · exact hw
      exact ih (he.addWrite h h' hx) (h.addWrite hx.1 hx.2 x.1) (h'.addWrite hx.1 hx.2 x.1)
        (fun w hw => hws w (.tail _ hw)) ⟨w, hw', hwp⟩

end CompoundWrite

end Firebase
