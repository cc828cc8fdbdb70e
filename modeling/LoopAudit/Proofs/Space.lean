import LoopAudit.Space
import Mathlib.Data.List.Nodup

/-! The names of aligned, reduced and extended spaces, each declared once. -/

namespace LoopAudit

namespace Names

variable {x y : String} {xs ys seen : List String}

theorem mem_ofList : y ∈ ofList xs ↔ y ∈ xs := by
  suffices h : ∀ acc, y ∈ xs.foldl (fun acc x => insert x acc) acc ↔ y ∈ acc ∨ y ∈ xs by
    simpa [ofList] using h []
  induction xs with
  | nil => simp
  | cons x xs ih =>
    intro acc
    rw [List.foldl_cons, ih, mem_insert, List.mem_cons, or_comm (a := y = x), or_assoc]

theorem extend_cons :
    extend xs (y :: ys) = extend (if xs.contains y then xs else xs ++ [y]) ys := rfl

theorem mem_extend : x ∈ extend xs ys ↔ x ∈ xs ∨ x ∈ ys := by
  induction ys generalizing xs with
  | nil => simp [extend]
  | cons y ys ih =>
    rw [extend_cons, ih, List.mem_cons, ← or_assoc]
    refine or_congr ?_ Iff.rfl
    split_ifs with hy
    · rw [List.contains_iff_mem] at hy
      exact ⟨.inl, fun h => h.elim id (· ▸ hy)⟩
    · rw [List.mem_append, List.mem_singleton]

theorem prefix_extend : xs.IsPrefix (extend xs ys) := by
  induction ys generalizing xs with
  | nil => exact List.prefix_rfl
  | cons y ys ih =>
    rw [extend_cons]
    refine List.IsPrefix.trans ?_ ih
    split_ifs
    · exact List.prefix_rfl
    · exact List.prefix_append ..

theorem nodup_extend (h : xs.Nodup) : (extend xs ys).Nodup := by
  induction ys generalizing xs with
  | nil => exact h
  | cons y ys ih =>
    rw [extend_cons]
    split_ifs with hy
    · exact ih h
    · rw [List.contains_iff_mem] at hy
      exact ih (List.nodup_append.mpr ⟨h, List.nodup_singleton y, by
        rintro a ha b hb rfl
        exact hy (List.mem_singleton.mp hb ▸ ha)⟩)

theorem extend_append {zs : List String} : extend xs (ys ++ zs) = extend (extend xs ys) zs :=
  List.foldl_append

theorem extend_of_subset (h : ∀ y ∈ ys, y ∈ xs) : extend xs ys = xs := by
  induction ys with
  | nil => rfl
  | cons y ys ih =>
    obtain ⟨hy, hys⟩ := List.forall_mem_cons.mp h
    rw [extend_cons, if_pos (List.contains_iff_mem.mpr hy), ih hys]

theorem extend_of_nodup (h : (xs ++ ys).Nodup) : extend xs ys = xs ++ ys := by
  induction ys generalizing xs with
  | nil => exact (List.append_nil xs).symm
  | cons y ys ih =>
    have hy : y ∉ xs := fun hmem =>
      (List.nodup_append.mp h).2.2 y hmem y (List.mem_cons_self ..) rfl
    have hsplit : xs ++ y :: ys = xs ++ [y] ++ ys := by simp
    rw [extend_cons, if_neg (mt List.contains_iff_mem.mp hy), hsplit]
    exact ih (hsplit ▸ h)

theorem nodup_of_firstRepeated? (h : firstRepeated? seen xs = none) :
    xs.Nodup ∧ ∀ x ∈ xs, x ∉ seen := by
  induction xs generalizing seen with
  | nil => exact ⟨.nil, nofun⟩
  | cons x xs ih =>
    unfold firstRepeated? at h
    split_ifs at h with hx
    obtain ⟨hnodup, hfresh⟩ := ih h
    rw [List.contains_iff_mem] at hx
    refine ⟨List.nodup_cons.mpr ⟨fun hmem => ?_, hnodup⟩, List.forall_mem_cons.mpr ⟨hx, ?_⟩⟩
    · exact hfresh x hmem (List.mem_cons_self ..)
    · exact fun y hy hs => hfresh y hy (List.mem_cons_of_mem _ hs)

theorem firstRepeated?_of_nodup (hxs : xs.Nodup) (hseen : ∀ x ∈ xs, x ∉ seen) :
    firstRepeated? seen xs = none := by
  induction xs generalizing seen with
  | nil => rfl
  | cons x xs ih =>
    obtain ⟨hx, hxs⟩ := List.nodup_cons.mp hxs
    obtain ⟨hxseen, hseen⟩ := List.forall_mem_cons.mp hseen
    rw [firstRepeated?, if_neg (mt List.contains_iff_mem.mp hxseen)]
    refine ih hxs fun y hy hmem => ?_
    rcases List.mem_cons.mp hmem with rfl | hmem
    · exact hx hy
    · exact hseen y hy hmem

end Names

namespace Space

variable {s t u : Space} {x : String} {xs params dims : List String}

theorem contains_iff : s.contains x = true ↔ x ∈ s.names := by
  simp [contains, isParam, isDim, names]

theorem find?_not_contains_eq_none {xs : List String} :
    (xs.find? fun x => !s.contains x) = none ↔ ∀ x ∈ xs, x ∈ s.names := by
  simp only [List.find?_eq_none, Bool.not_eq_true', Bool.not_eq_false, contains_iff]

theorem distinct_iff :
    s.Distinct ↔ s.params.Nodup ∧ s.dims.Nodup ∧ ∀ x ∈ s.params, x ∉ s.dims := by
  rw [Distinct, names, List.nodup_append']
  exact Iff.rfl

theorem ofNames_eq_ok (h : ofNames params dims = .ok s) : s = ⟨params, dims⟩ ∧ s.Distinct := by
  unfold ofNames at h
  split at h
  · cases h
  · next hrep =>
    cases h
    exact ⟨rfl, (Names.nodup_of_firstRepeated? hrep).1⟩

theorem ofNames_of_distinct (h : s.Distinct) : ofNames s.params s.dims = .ok s := by
  have hnone : Names.firstRepeated? [] (s.params ++ s.dims) = none :=
    Names.firstRepeated?_of_nodup h fun _ _ => List.not_mem_nil
  rw [ofNames, hnone]

theorem mem_names_align : x ∈ (s.align t).names ↔ x ∈ s.names ∨ x ∈ t.names := by
  simp only [align, names, List.mem_append, Names.mem_extend, List.not_mem_nil, false_or,
    List.mem_filter, Bool.not_eq_true', List.contains_eq_mem, decide_eq_false_iff_not]
  tauto

theorem mem_dims_align : x ∈ (s.align t).dims ↔ x ∈ s.dims ∨ x ∈ t.dims := Names.mem_extend

theorem Distinct.align (hs : s.Distinct) : (s.align t).Distinct := by
  refine distinct_iff.mpr ⟨Names.nodup_extend .nil, Names.nodup_extend (distinct_iff.mp hs).2.1, ?_⟩
  intro x hx
  simp only [Space.align, Names.mem_extend, List.not_mem_nil, false_or, List.mem_filter] at hx
  simpa [Space.align] using hx.2

theorem params_align_of_eq (hs : s.Distinct) (ht : t.Distinct) (h : t.params = s.params) :
    (s.align t).params = s.params := by
  obtain ⟨hnodup, -, hdims⟩ := distinct_iff.mp hs
  obtain ⟨-, -, hdims'⟩ := distinct_iff.mp ht
  have hkept : ∀ p ∈ s.params ++ t.params, (!(Names.extend s.dims t.dims).contains p) = true := by
    rw [h] at hdims' ⊢
    intro p hp
    have hp : p ∈ s.params := by simpa using hp
    simp [Names.mem_extend, hdims p hp, hdims' p hp]
  have hself : Names.extend [] s.params = s.params := Names.extend_of_nodup hnodup
  change Names.extend [] ((s.params ++ t.params).filter _) = s.params
  rw [List.filter_eq_self.mpr hkept, h, Names.extend_append, hself]
  exact Names.extend_of_subset fun _ => id

theorem mem_names_without : x ∈ (s.without xs).names ↔ x ∈ s.names ∧ x ∉ xs := by
  simp only [without, names, List.mem_append, List.mem_filter, Bool.not_eq_true',
    List.contains_eq_mem, decide_eq_false_iff_not]
  tauto

theorem params_without (h : ∀ x ∈ xs, x ∉ s.params) : (s.without xs).params = s.params := by
  refine List.filter_eq_self.mpr fun p hp => ?_
  simpa using fun hmem => h p hmem hp

theorem without_without {ys : List String} :
    (s.without xs).without ys = s.without (xs ++ ys) := by
  simp [without, List.filter_filter, Bool.and_comm]

theorem Distinct.without (hs : s.Distinct) : (s.without xs).Distinct := by
  have hnames : (s.without xs).names = s.names.filter fun x => !xs.contains x := by
    simp [Space.without, names]
  rw [Distinct, hnames]
  exact hs.filter _

theorem Distinct.withDim (hs : s.Distinct) (h : s.withDim x = .ok t) : t.Distinct := by
  unfold Space.withDim at h
  split_ifs at h with hx
  cases h
  rw [contains_iff] at hx
  rw [Distinct, names, ← List.append_assoc]
  refine List.nodup_append.mpr ⟨hs, List.nodup_singleton x, ?_⟩
  rintro a ha b hb rfl
  exact hx (List.mem_singleton.mp hb ▸ ha)

end Space

end LoopAudit
