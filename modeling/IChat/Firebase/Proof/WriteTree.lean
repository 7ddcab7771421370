import IChat.Firebase.Proof.RemoveWrite
import IChat.Firebase.WriteTree

/-!
# Removing a pending write

`Layered t`: `visibleWrites` is what the pending writes amount to, added in their order. Adding a
write keeps this. `removeWriteId` keeps it (`Layered.removeWriteId`) when the write it removes is
hidden by a later one, or covers another one, or is apart from all others (`Clean`). It does not
when an earlier write is above the removed one and no other is at it, above it later or below it:
then the removed write stays visible (`removeWriteId_exact`).
-/

open SortedMap KeyTree ImmutableTree

namespace Firebase

open FPath CompoundWrite

/-! ## Records -/

namespace WriteRecord

/-- The nodes a record writes, with their paths. -/
def writes (r : WriteRecord) : List (Path × FNode) :=
  match r.change with
  | .overwrite newData => [(r.path, newData)]
  | .merge changedChildren => changedChildren.forEachPathSoFar r.path

/-- The record writes well-formed nodes that are not empty, and is visible. -/
structure WF (r : WriteRecord) : Prop where
  visible : r.visible = true
  change : match r.change with
    | .overwrite newData => newData.WF ∧ newData.isEmpty = false
    | .merge m => CompoundWrite.WF m ∧ ∀ node, m.value = some node → node.isEmpty = false

theorem writes_overwrite {r : WriteRecord} {node : FNode} (h : r.change = .overwrite node) :
    r.writes = [(r.path, node)] := by
  rw [writes, h]

theorem writes_below {r : WriteRecord} {w : Path × FNode} (hw : w ∈ r.writes) : r.path <+: w.1 := by
  unfold writes at hw
  split at hw
  · rw [List.mem_singleton] at hw
    rw [hw]
  · rw [forEachPathSoFar_append, List.mem_map] at hw
    obtain ⟨x, -, rfl⟩ := hw
    exact List.prefix_append _ _

theorem WF.stores {r : WriteRecord} (h : r.WF) {w : Path × FNode} (hw : w ∈ r.writes) :
    Stores w := by
  have hc := h.change
  unfold writes at hw
  split at hw
  · rename_i node hn
    rw [hn] at hc
    rw [List.mem_singleton] at hw
    subst hw
    exact hc
  · rename_i m hm
    rw [hm] at hc
    rw [forEachPathSoFar_append, List.mem_map] at hw
    obtain ⟨x, hx, rfl⟩ := hw
    exact forEach_stores hc.1 hc.2 x hx

theorem containsPath_iff {r : WriteRecord} {p : Path} :
    r.containsPath p = true ↔ ∃ w ∈ r.writes, w.1 <+: p := by
  cases hc : r.change with
  | overwrite newData => simp [containsPath, writes, hc, contains_iff]
  | merge m =>
    simp only [containsPath, writes, hc, forEachPathSoFar_append, List.any_eq_true, contains_iff,
      List.mem_map]
    constructor
    · intro h
      obtain ⟨x, hx, hp⟩ := h
      exact ⟨_, ⟨x, hx, rfl⟩, hp⟩
    · intro h
      obtain ⟨_, ⟨x, hx, rfl⟩, hp⟩ := h
      exact ⟨x, hx, hp⟩

end WriteRecord

/-- The writes a compound write lists are apart from each other. -/
theorem CompoundWrite.forEach_apart {c : CompoundWrite} (h : CompoundWrite.WF c) :
    c.forEach.Pairwise fun w w' => Apart w.1 w'.1 := by
  induction h with
  | root hv => exact List.pairwise_singleton _ _
  | @children cs hs hw hwr ih =>
    rw [forEach, forEachPathSoFar_mk, Option.toList_none, List.map_nil, List.append_nil]
    clear hw hwr
    induction cs with
    | nil => exact .nil
    | cons x cs ihs =>
      obtain ⟨k, c⟩ := x
      obtain ⟨hx, hs⟩ := List.pairwise_cons.1 hs
      rw [forEachChildren, List.nil_append, forEachPathSoFar_append]
      apply List.pairwise_append.2
      refine ⟨?_, ihs hs fun k' c' hm => ih k' c' (.tail _ hm), ?_⟩
      · apply List.pairwise_map.2
        exact (ih k c (.head _)).imp fun hap => .inr hap
      · intro w hw w' hw'
        obtain ⟨y, -, rfl⟩ := List.mem_map.1 hw
        obtain ⟨k', c', hm, hw'⟩ := mem_forEachChildren.1 hw'
        rw [forEachPathSoFar_append] at hw'
        obtain ⟨y', -, rfl⟩ := List.mem_map.1 hw'
        exact .inl (hx _ hm).ne

theorem WriteRecord.WF.apart {r : WriteRecord} (h : r.WF) :
    r.writes.Pairwise fun w w' => Apart w.1 w'.1 := by
  have hc := h.change
  unfold writes
  split
  · exact List.pairwise_singleton _ _
  · rename_i m hm
    rw [hm] at hc
    rw [forEachPathSoFar_append]
    apply List.pairwise_map.2
    exact (forEach_apart hc.1).imp fun hap => by
      induction r.path with
      | nil => exact hap
      | cons k p ih => exact .inr ih

namespace WriteTree

/-- The writes of a list of records. -/
def writesOf (rs : List WriteRecord) : List (Path × FNode) := rs.flatMap WriteRecord.writes

theorem writesOf_append (rs rs' : List WriteRecord) :
    writesOf (rs ++ rs') = writesOf rs ++ writesOf rs' := List.flatMap_append

theorem writesOf_cons (r : WriteRecord) (rs : List WriteRecord) :
    writesOf (r :: rs) = r.writes ++ writesOf rs := List.flatMap_cons

theorem stores_writesOf {rs : List WriteRecord} (h : ∀ r ∈ rs, r.WF) :
    ∀ w ∈ writesOf rs, Stores w := by
  intro w hw
  obtain ⟨r, hr, hw⟩ := List.mem_flatMap.1 hw
  exact (h r hr).stores hw

/-- Layering at the root adds the writes in order. -/
theorem foldl_layerWrite (c : CompoundWrite) (rs : List WriteRecord) :
    rs.foldl (layerWrite []) c = addWrites c (writesOf rs) := by
  induction rs generalizing c with
  | nil => rfl
  | cons r rs ih =>
    rw [List.foldl_cons, ih, writesOf_cons, addWrites_append]
    congr 1
    simp only [layerWrite, WriteRecord.writes, contains, List.isPrefixOf_nil_left, ↓reduceIte,
      relativePathFrom, List.length_nil, List.drop_zero]
    cases r.change with
    | overwrite node => rfl
    | merge m => exact addCompoundWrite_eq c m r.path

/-- The visible writes are the pending ones, in order. -/
def Layered (t : WriteTree) : Prop := t.visibleWrites = addWrites emptyWrite (writesOf t.allWrites)

theorem resetTree_layered (t : WriteTree) : t.resetTree.Layered := by
  have hall : t.allWrites.filter defaultFilter = t.allWrites :=
    List.filter_eq_self.2 fun _ _ => rfl
  show (t.allWrites.filter defaultFilter).foldl (layerWrite []) emptyWrite = _
  rw [foldl_layerWrite, hall]
  rfl

theorem Layered.wf {t : WriteTree} (h : t.Layered) (hwf : ∀ r ∈ t.allWrites, r.WF) :
    CompoundWrite.WF t.visibleWrites := by
  rw [h]
  exact CompoundWrite.WF.empty.addWrites (stores_writesOf hwf)

/-! ## Adding -/

theorem Layered.addOverwrite {t : WriteTree} (h : t.Layered) (path : Path) (newData : FNode)
    (writeId : Int) : (t.addOverwriteAtPath path newData writeId true).Layered := by
  simp only [Layered, addOverwriteAtPath, writesOf_append, addWrites_append, ↓reduceIte]
  rw [h]
  simp [writesOf, WriteRecord.writes]

theorem Layered.addMerge {t : WriteTree} (h : t.Layered) (path : Path) (m : CompoundWrite)
    (writeId : Int) : (t.addMergeAtPath path m writeId).Layered := by
  simp only [Layered, addMergeAtPath, writesOf_append, addWrites_append]
  rw [h, addCompoundWrite_eq]
  simp [writesOf, WriteRecord.writes, addWrites]

/-! ## The scan for other writes -/

section Scan

variable (w : WriteRecord) (index : Nat) (rs : List WriteRecord)

/-- Whether a later write hides the removed one. -/
def hides (w r : WriteRecord) : Bool := r.visible && r.containsPath w.path

/-- Whether a write is covered by the removed one. -/
def covered (w r : WriteRecord) : Bool := r.visible && contains w.path r.path

theorem scanWrites_false (i : Nat) (o : Bool) : scanWrites w index rs i false o = (false, o) := by
  cases i <;> rfl

theorem scanWrites_succ {i : Nat} (hi : i < rs.length) (o : Bool) :
    scanWrites w index rs (i + 1) true o =
      if decide (index ≤ i) && hides w rs[i] then (false, o)
      else scanWrites w index rs i true (o || covered w rs[i]) := by
  simp only [scanWrites, List.getElem?_eq_getElem hi, hides, covered]
  generalize rs[i] = r
  by_cases hv : r.visible = true
  · simp only [hv, ↓reduceIte, Bool.true_and, ge_iff_le]
    split
    · rw [scanWrites_false]
    · split
      · rename_i hc; simp [hc]
      · rename_i hc; simp [hc]
  · simp [hv]

/-- The scan ends with `true` when no later write hides the removed one; it has then seen every
write. -/
theorem scanWrites_eq (i : Nat) (hi : i ≤ rs.length) (o : Bool) :
    (scanWrites w index rs i true o).1 = !((rs.take i).drop index).any (hides w) ∧
      ((scanWrites w index rs i true o).1 = true →
        (scanWrites w index rs i true o).2 = (o || (rs.take i).any (covered w))) := by
  induction i generalizing o with
  | zero => simp [scanWrites]
  | succ i ih =>
    have hlt : i < rs.length := by omega
    have htake : rs.take (i + 1) = rs.take i ++ [rs[i]] := (List.take_append_getElem hlt).symm
    obtain ⟨h1, h2⟩ := ih (by omega) (o || covered w rs[i])
    have hlen : (rs.take i).length = i := by simp; omega
    have hdrop : (rs.take (i + 1)).drop index =
        (rs.take i).drop index ++ if index ≤ i then [rs[i]] else [] := by
      rw [htake, List.drop_append, hlen]
      split
      · rename_i hle
        simp [show index - i = 0 by omega]
      · rename_i hle
        congr 1
        exact List.drop_eq_nil_of_le (by simp only [List.length_singleton]; omega)
    rw [scanWrites_succ w index rs hlt, hdrop, htake]
    split
    · rename_i hs
      simp only [Bool.and_eq_true, decide_eq_true_eq] at hs
      simp [hs.1, hs.2]
    · rename_i hs
      simp only [Bool.and_eq_true, decide_eq_true_eq, not_and, Bool.not_eq_true] at hs
      refine ⟨?_, fun ht => ?_⟩
      · rw [h1]
        by_cases hle : index ≤ i
        · simp [hle, hs hle]
        · simp [hle]
      · rw [h2 ht]
        simp only [List.any_append, List.any_cons, List.any_nil, Bool.or_false, Bool.or_assoc]
        rw [Bool.or_comm (covered w rs[i])]

end Scan

/-! ## Removing -/

section Remove

variable {t : WriteTree} {pre post : List WriteRecord} {w : WriteRecord}

/-- The removal of the first record with its id. -/
theorem removeWriteId_eq (h : t.allWrites = pre ++ w :: post)
    (hpre : ∀ r ∈ pre, r.writeId ≠ w.writeId) :
    t.removeWriteId w.writeId = some
      (match scanWrites w pre.length (pre ++ post) (pre ++ post).length w.visible false with
        | (false, _) => (false, { t with allWrites := pre ++ post })
        | (true, true) => (true, { t with allWrites := pre ++ post }.resetTree)
        | (true, false) => (true, { t with
            allWrites := pre ++ post, visibleWrites := removeVisible t.visibleWrites w })) := by
  have hfind : t.allWrites.findIdx? (fun record => record.writeId == w.writeId) =
      some pre.length := by
    rw [List.findIdx?_eq_some_iff_getElem]
    refine ⟨by simp [h], by simp [h], fun j hj => ?_⟩
    have hlt : j < t.allWrites.length := by rw [h, List.length_append]; omega
    have hget : t.allWrites[j] = pre[j] := by simp [h, List.getElem_append_left hj]
    rw [hget]
    simpa using hpre _ (List.getElem_mem hj)
  have herase : t.allWrites.eraseIdx pre.length = pre ++ post := by
    rw [h, List.eraseIdx_append_of_length_le (Nat.le_refl _), Nat.sub_self]
    rfl
  have hget : t.allWrites[pre.length]? = some w := by simp [h]
  rw [removeWriteId, hfind]
  show Option.map _ t.allWrites[pre.length]? = _
  rewrite [hget, Option.map_some, herase]
  rfl

theorem removeVisible_eq (c : CompoundWrite) (w : WriteRecord) :
    removeVisible c w = removeWrites c (w.writes.map (·.1)) := by
  unfold removeVisible
  split
  · rename_i newData hc
    rw [WriteRecord.writes_overwrite hc]
    rfl
  · rename_i m hm
    simp only [WriteRecord.writes, hm, forEachPathSoFar_append, List.map_map, removeWrites,
      List.foldl_map]
    rfl

theorem isEmpty_childCompoundWriteAtPath_empty (p : Path) :
    (childCompoundWriteAtPath emptyWrite p).isEmpty = true := by
  have hnone : completeNodeAtPath emptyWrite p = none := completeNodeAtPath_empty p
  rw [childCompoundWriteAtPath_eq WF.empty, hnone, emptyWrite, subtreeAtPath_empty]
  rfl

/-- The removal of `w` leaves what the other writes amount to: a later write hides it, or it covers
another write, or it is apart from all others. -/
def Clean (pre : List WriteRecord) (w : WriteRecord) (post : List WriteRecord) : Prop :=
  (∃ r ∈ post, r.containsPath w.path = true) ∨ (∃ r ∈ pre ++ post, w.path <+: r.path) ∨
    ∀ x ∈ w.writes, ∀ y ∈ writesOf (pre ++ post), Apart x.1 y.1

/-- The removal of a write that is apart from the others. -/
theorem removeVisible_layered (hwf : ∀ r ∈ pre ++ w :: post, r.WF)
    (hapart : ∀ x ∈ w.writes, ∀ y ∈ writesOf (pre ++ post), Apart x.1 y.1) :
    removeVisible (addWrites emptyWrite (writesOf (pre ++ w :: post))) w =
      addWrites emptyWrite (writesOf (pre ++ post)) := by
  have hpre : ∀ r ∈ pre, r.WF := fun r hr => hwf r (List.mem_append_left _ hr)
  have hw : w.WF := hwf w (List.mem_append_right _ (.head _))
  have hpost : ∀ r ∈ post, r.WF := fun r hr => hwf r (List.mem_append_right _ (.tail _ hr))
  have hc := CompoundWrite.WF.empty.addWrites (stores_writesOf hpre)
  have hmem : ∀ y, y ∈ writesOf pre ∨ y ∈ writesOf post → y ∈ writesOf (pre ++ post) := by
    intro y hy
    rw [writesOf_append]
    exact List.mem_append.2 hy
  rw [removeVisible_eq, writesOf_append, writesOf_cons, addWrites_append, addWrites_append,
    removeWrites_addWrites_comm (hc.addWrites fun x hx => hw.stores hx), removeWrites_addWrites hc,
    writesOf_append, addWrites_append]
  · intro x hx
    refine ⟨hw.stores hx, ?_⟩
    rw [childCompoundWriteAtPath_addWrites CompoundWrite.WF.empty fun y hy =>
      ⟨stores_writesOf hpre y hy, (hapart x hx y (hmem y (.inl hy))).symm⟩]
    exact isEmpty_childCompoundWriteAtPath_empty x.1
  · exact hw.apart
  · intro y hy
    refine ⟨stores_writesOf hpost y hy, fun p hp => ?_⟩
    obtain ⟨x, hx, rfl⟩ := List.mem_map.1 hp
    exact hapart x hx y (hmem y (.inr hy))

/-- A write hidden by a later one can be left out. -/
theorem layered_of_hidden (hwf : ∀ r ∈ pre ++ w :: post, r.WF)
    (hhides : ∃ r ∈ post, r.containsPath w.path = true) :
    addWrites emptyWrite (writesOf (pre ++ w :: post)) =
      addWrites emptyWrite (writesOf (pre ++ post)) := by
  have hpre : ∀ r ∈ pre, r.WF := fun r hr => hwf r (List.mem_append_left _ hr)
  have hw : w.WF := hwf w (List.mem_append_right _ (.head _))
  have hpost : ∀ r ∈ post, r.WF := fun r hr => hwf r (List.mem_append_right _ (.tail _ hr))
  have hc := CompoundWrite.WF.empty.addWrites (stores_writesOf hpre)
  have hst : ∀ x ∈ w.writes, Stores x := fun x hx => hw.stores hx
  obtain ⟨r, hr, hrp⟩ := hhides
  obtain ⟨y, hy, hyp⟩ := WriteRecord.containsPath_iff.1 hrp
  rw [writesOf_append, writesOf_cons, writesOf_append, addWrites_append, addWrites_append,
    addWrites_append]
  exact (eqAbove_addWrites hc fun x hx => ⟨hst x hx, WriteRecord.writes_below hx⟩).addWrites
    (hc.addWrites hst) hc (stores_writesOf hpost) ⟨y, List.mem_flatMap.2 ⟨r, hr, hy⟩, hyp⟩

theorem any_hides (hwf : ∀ r ∈ pre ++ w :: post, r.WF) :
    post.any (hides w) = true ↔ ∃ r ∈ post, r.containsPath w.path = true := by
  rw [List.any_eq_true]
  constructor
  · intro h
    obtain ⟨r, hr, hh⟩ := h
    simp only [hides, Bool.and_eq_true] at hh
    exact ⟨r, hr, hh.2⟩
  · intro h
    obtain ⟨r, hr, hh⟩ := h
    refine ⟨r, hr, ?_⟩
    simp [hides, hh, (hwf r (List.mem_append_right _ (.tail _ hr))).visible]

theorem any_covered (hwf : ∀ r ∈ pre ++ w :: post, r.WF) :
    (pre ++ post).any (covered w) = true ↔ ∃ r ∈ pre ++ post, w.path <+: r.path := by
  rw [List.any_eq_true]
  constructor
  · intro h
    obtain ⟨r, hr, hh⟩ := h
    simp only [covered, Bool.and_eq_true, contains_iff] at hh
    exact ⟨r, hr, hh.2⟩
  · intro h
    obtain ⟨r, hr, hh⟩ := h
    have hmem : r ∈ pre ++ w :: post := by
      rw [List.mem_append] at hr ⊢
      exact hr.imp id (.tail _)
    refine ⟨r, hr, ?_⟩
    simp [covered, contains_iff, hh, (hwf r hmem).visible]

/-- What a removal does to the visible writes, by the two questions the scan answers. -/
theorem removeWriteId_cases (h : t.allWrites = pre ++ w :: post) (hwf : ∀ r ∈ t.allWrites, r.WF)
    (hpre : ∀ r ∈ pre, r.writeId ≠ w.writeId) :
    ∃ b t', t.removeWriteId w.writeId = some (b, t') ∧ t'.allWrites = pre ++ post ∧
      (((∃ r ∈ post, r.containsPath w.path = true) ∧ b = false ∧
          t'.visibleWrites = t.visibleWrites) ∨
        ((¬ ∃ r ∈ post, r.containsPath w.path = true) ∧ b = true ∧
          (((∃ r ∈ pre ++ post, w.path <+: r.path) ∧ t'.Layered) ∨
            ((¬ ∃ r ∈ pre ++ post, w.path <+: r.path) ∧
              t'.visibleWrites = removeVisible t.visibleWrites w)))) := by
  rw [h] at hwf
  have hvis : w.visible = true := (hwf w (List.mem_append_right _ (.head _))).visible
  obtain ⟨h1, h2⟩ := scanWrites_eq w pre.length (pre ++ post) (pre ++ post).length (Nat.le_refl _)
    false
  rw [List.take_length, List.drop_left] at h1
  rw [List.take_length, Bool.false_or] at h2
  rw [removeWriteId_eq h hpre, hvis, ← any_hides hwf, ← any_covered hwf]
  generalize scanWrites w pre.length (pre ++ post) (pre ++ post).length true false = scan at h1 h2
  obtain ⟨s1, s2⟩ := scan
  simp only at h1 h2
  cases hh : post.any (hides w) with
  | true =>
    rw [hh] at h1
    subst h1
    exact ⟨_, _, rfl, rfl, .inl ⟨rfl, rfl, rfl⟩⟩
  | false =>
    rw [hh] at h1
    subst h1
    have h2 := h2 rfl
    cases hc : (pre ++ post).any (covered w) with
    | true =>
      rw [hc] at h2
      subst h2
      exact ⟨_, _, rfl, rfl, .inr ⟨by simp, rfl, .inl ⟨rfl, resetTree_layered _⟩⟩⟩
    | false =>
      rw [hc] at h2
      subst h2
      exact ⟨_, _, rfl, rfl, .inr ⟨by simp, rfl, .inr ⟨by simp, rfl⟩⟩⟩

/-- **A clean removal** leaves what the other writes amount to. -/
theorem Layered.removeWriteId (hl : t.Layered) (hwf : ∀ r ∈ t.allWrites, r.WF)
    (h : t.allWrites = pre ++ w :: post) (hpre : ∀ r ∈ pre, r.writeId ≠ w.writeId)
    (hclean : Clean pre w post) :
    ∃ b t', t.removeWriteId w.writeId = some (b, t') ∧ t'.allWrites = pre ++ post ∧ t'.Layered := by
  obtain ⟨b, t', hrem, hall, hcases⟩ := removeWriteId_cases h hwf hpre
  refine ⟨b, t', hrem, hall, ?_⟩
  rw [h] at hwf
  rcases hcases with ⟨hh, -, hv⟩ | ⟨hh, -, ⟨-, hlay⟩ | ⟨hcov, hv⟩⟩
  · rw [Layered, hv, hl, hall, h, layered_of_hidden hwf hh]
  · exact hlay
  · have hapart := (hclean.resolve_left hh).resolve_left hcov
    rw [Layered, hv, hl, hall, h, removeVisible_layered hwf hapart]

end Remove

/-! ## Overwrites only -/

/-- The records are overwrites (`setValue`). -/
def Overwrites (rs : List WriteRecord) : Prop :=
  ∀ r ∈ rs, ∃ newData, r.change = .overwrite newData

section Overwrites

variable {t : WriteTree} {pre post : List WriteRecord} {w : WriteRecord}

theorem mem_writesOf_overwrites {rs : List WriteRecord} (h : Overwrites rs) {y : Path × FNode} :
    y ∈ writesOf rs → ∃ r ∈ rs, r.path = y.1 := by
  intro hy
  obtain ⟨r, hr, hy⟩ := List.mem_flatMap.1 hy
  obtain ⟨newData, hn⟩ := h r hr
  rw [WriteRecord.writes_overwrite hn, List.mem_singleton] at hy
  exact ⟨r, hr, by rw [hy]⟩

theorem containsPath_overwrite {r : WriteRecord} (h : ∃ newData, r.change = .overwrite newData)
    {p : Path} : r.containsPath p = true ↔ r.path <+: p := by
  obtain ⟨newData, hn⟩ := h
  rw [WriteRecord.containsPath_iff, WriteRecord.writes_overwrite hn]
  simp

/-- The removed write stays behind in an earlier write above it. -/
def Stuck (pre : List WriteRecord) (w : WriteRecord) (post : List WriteRecord) : Prop :=
  (∃ r ∈ pre, r.path <+: w.path ∧ r.path ≠ w.path) ∧ (¬ ∃ r ∈ post, r.path <+: w.path) ∧
    ¬ ∃ r ∈ pre ++ post, w.path <+: r.path

theorem clean_of_not_stuck (ho : Overwrites (pre ++ w :: post)) (hs : ¬ Stuck pre w post) :
    Clean pre w post := by
  have hpost : ∀ r ∈ post, ∃ newData, r.change = .overwrite newData := fun r hr =>
    ho r (List.mem_append_right _ (.tail _ hr))
  have hothers : Overwrites (pre ++ post) := by
    intro r hr
    rw [List.mem_append] at hr
    exact ho r (List.mem_append.2 (hr.imp id (.tail _)))
  by_cases hh : ∃ r ∈ post, r.path <+: w.path
  · obtain ⟨r, hr, hp⟩ := hh
    exact .inl ⟨r, hr, (containsPath_overwrite (hpost r hr)).2 hp⟩
  by_cases hc : ∃ r ∈ pre ++ post, w.path <+: r.path
  · exact .inr (.inl hc)
  refine .inr (.inr fun x hx y hy => ?_)
  obtain ⟨newData, hn⟩ := ho w (List.mem_append_right _ (.head _))
  rw [WriteRecord.writes_overwrite hn, List.mem_singleton] at hx
  subst hx
  obtain ⟨r, hr, hry⟩ := mem_writesOf_overwrites hothers hy
  rw [← hry]
  rcases apart_or_prefix w.path r.path with hp | hp | hp
  · exact hp
  · exact absurd ⟨r, hr, hp⟩ hc
  · exfalso
    rcases List.mem_append.1 hr with hr' | hr'
    · by_cases he : r.path = w.path
      · exact hc ⟨r, hr, by rw [he]⟩
      · exact hs ⟨⟨r, hr', hp, he⟩, hh, hc⟩
    · exact hh ⟨r, hr', hp⟩

/-- `t'` is `t` without a write at `q` that was visible and was the last one there, at which the
others leave something open. -/
structure Removed (t t' : WriteTree) (q : Path) : Prop where
  write : ∃ newData : FNode, (newData.WF ∧ newData.isEmpty = false) ∧
    t.visibleWrites = addWrite t'.visibleWrites newData q
  bare : completeNodeAtPath t'.visibleWrites q = none
  below : ∀ p, (completeNodeAtPath t'.visibleWrites p).isSome = true → q <+: p →
    childCompoundWriteAtPath t'.visibleWrites p = childCompoundWriteAtPath t.visibleWrites p

/-- **Removing a write with no earlier one in its way**: either a later write hides it and nothing
changes, or it was the last write in what was visible, and what was visible without it is left. -/
theorem removeWriteId_settled (hl : t.Layered) (hwf : ∀ r ∈ t.allWrites, r.WF)
    (ho : Overwrites t.allWrites) (h : t.allWrites = pre ++ w :: post)
    (hids : ∀ r ∈ pre, r.writeId ≠ w.writeId) (hpre : ∀ r ∈ pre, Apart r.path w.path) :
    ∃ b t', t.removeWriteId w.writeId = some (b, t') ∧ t'.allWrites = pre ++ post ∧ t'.Layered ∧
      (b = false → t'.visibleWrites = t.visibleWrites) ∧ (b = true → Removed t t' w.path) := by
  obtain ⟨b, t', hrem, hall, hcases⟩ := removeWriteId_cases h hwf hids
  have hclean := clean_of_not_stuck (h ▸ ho) fun ⟨⟨r, hr, hrp, _⟩, _⟩ =>
    not_apart_of_prefix hrp (hpre r hr)
  obtain ⟨b', t'', hrem', -, hlay⟩ := hl.removeWriteId hwf h hids hclean
  rw [hrem] at hrem'
  cases hrem'
  refine ⟨b, t', hrem, hall, hlay, fun hb => ?_, fun hb => ?_⟩
  · rcases hcases with ⟨-, -, hv⟩ | ⟨-, hb', -⟩
    · exact hv
    · rw [hb] at hb'; cases hb'
  · rcases hcases with ⟨-, hb', -⟩ | ⟨hh, -, -⟩
    · rw [hb] at hb'; cases hb'
    · rw [h] at hwf ho
      have hwfpre : ∀ r ∈ pre, r.WF := fun r hr => hwf r (List.mem_append_left _ hr)
      have hwfpost : ∀ r ∈ post, r.WF := fun r hr =>
        hwf r (List.mem_append_right _ (.tail _ hr))
      have hopre : Overwrites pre := fun r hr => ho r (List.mem_append_left _ hr)
      have hopost : Overwrites post := fun r hr => ho r (List.mem_append_right _ (.tail _ hr))
      have hw : w ∈ pre ++ w :: post := List.mem_append_right _ (.head _)
      obtain ⟨newData, hn⟩ := ho w hw
      have hst : Stores (w.path, newData) := (hwf w hw).stores
        (by rw [WriteRecord.writes_overwrite hn]; exact .head _)
      have hno : ∀ x ∈ writesOf post, ¬ x.1 <+: w.path := by
        intro x hx hp
        obtain ⟨r, hr, hrx⟩ := mem_writesOf_overwrites hopost hx
        exact hh ⟨r, hr, (containsPath_overwrite (hopost r hr)).2 (by rw [hrx]; exact hp)⟩
      have hvis : t.visibleWrites = addWrites (addWrite (addWrites emptyWrite (writesOf pre))
          newData w.path) (writesOf post) := by
        rw [hl, h, writesOf_append, writesOf_cons, WriteRecord.writes_overwrite hn,
          addWrites_append, List.singleton_append, addWrites_cons]
      have hvis' : t'.visibleWrites =
          addWrites (addWrites emptyWrite (writesOf pre)) (writesOf post) := by
        rw [hlay, hall, writesOf_append, addWrites_append]
      have hc : CompoundWrite.WF (addWrites emptyWrite (writesOf pre)) :=
        CompoundWrite.WF.empty.addWrites (stores_writesOf hwfpre)
      -- a write at or above the path would be in the way of this one, or hide it
      have hcomplete : ∀ p, (completeNodeAtPath t'.visibleWrites p).isSome = true →
          (∃ x ∈ writesOf pre, x.1 <+: p) ∨ ∃ x ∈ writesOf post, x.1 <+: p := by
        intro p hp
        rw [hvis'] at hp
        refine (isSome_completeNodeAtPath_of_addWrites hc (stores_writesOf hwfpost) hp).imp_left ?_
        intro hp
        refine (isSome_completeNodeAtPath_of_addWrites .empty (stores_writesOf hwfpre)
          hp).resolve_left fun hp => ?_
        cases p <;> cases hp
      have hapart : ∀ x ∈ writesOf pre, ∀ p, w.path <+: p → ¬ x.1 <+: p := by
        intro x hx p hwp hxp
        obtain ⟨r, hr, hrx⟩ := mem_writesOf_overwrites hopre hx
        have hap := hpre r hr
        rw [hrx] at hap
        rcases List.prefix_or_prefix_of_prefix hxp hwp with hx | hx
        · exact not_apart_of_prefix hx hap
        · exact not_apart_of_prefix hx hap.symm
      constructor
      · obtain ⟨newData', hnew, he⟩ := addWrites_addWrite hc hst fun x hx =>
          ⟨stores_writesOf hwfpost x hx, hno x hx⟩
        exact ⟨newData', hnew, by rw [hvis, he, hvis']⟩
      · cases hp : completeNodeAtPath t'.visibleWrites w.path with
        | none => rfl
        | some n =>
          rcases hcomplete w.path (by rw [hp]; rfl) with ⟨x, hx, hxp⟩ | ⟨x, hx, hxp⟩
          · exact absurd hxp (hapart x hx _ List.prefix_rfl)
          · exact absurd hxp (hno x hx)
      · intro p hp hwp
        rw [hvis, hvis']
        refine childCompoundWriteAtPath_addWrites_congr hc (hc.addWrite hst.1 hst.2 w.path)
          (stores_writesOf hwfpost) (.inr ?_)
        rcases hcomplete p hp with ⟨x, hx, hxp⟩ | hpost
        · exact absurd hxp (hapart x hx p hwp)
        · exact hpost

end Overwrites

end WriteTree

end Firebase
