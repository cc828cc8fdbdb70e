import LoopAudit.Proofs.Space

/-! Alignment of spaces as an operation on ordered lists of names. The space without names is
neutral, a space aligned with itself stays as it is, and the grouping of several alignments does not
matter: a parameter that some space promotes to a dimension is dropped sooner or later, and the
others stand in the order of their first appearance either way. -/

namespace LoopAudit

namespace Names

variable {xs ys zs : List String}

theorem extend_extend : extend xs (extend ys zs) = extend (extend xs ys) zs := by
  induction zs generalizing ys with
  | nil => rfl
  | cons z zs ih =>
    rw [extend_cons, extend_cons, ih]
    refine congrArg (extend · zs) ?_
    by_cases hz : z ∈ ys
    · have hmem : z ∈ extend xs ys := mem_extend.mpr (.inr hz)
      rw [if_pos (List.contains_iff_mem.mpr hz), if_pos (List.contains_iff_mem.mpr hmem)]
    · rw [if_neg (mt List.contains_iff_mem.mp hz), extend_append]
      rfl

theorem extend_once_append : extend [] (extend [] xs ++ ys) = extend [] (xs ++ ys) := by
  rw [extend_append, extend_extend, extend_append]
  rfl

theorem extend_append_once : extend [] (xs ++ extend [] ys) = extend [] (xs ++ ys) := by
  rw [extend_append, extend_extend, extend_append]
  rfl

theorem filter_extend {p : String → Bool} :
    (extend xs ys).filter p = extend (xs.filter p) (ys.filter p) := by
  induction ys generalizing xs with
  | nil => rfl
  | cons y ys ih =>
    rw [extend_cons, ih]
    by_cases hp : p y = true
    · have hmem : (xs.filter p).contains y = xs.contains y := by simp [hp]
      rw [List.filter_cons_of_pos hp, extend_cons, hmem]
      split_ifs
      · rfl
      · rw [List.filter_append, List.filter_cons_of_pos hp]
        rfl
    · rw [List.filter_cons_of_neg hp]
      split_ifs
      · rfl
      · rw [List.filter_append, List.filter_cons_of_neg hp, List.filter_nil, List.append_nil]

end Names

namespace Space

variable {s t u a b c : Space} {params dims : List String}

def unpromoted (dims params : List String) : List String := params.filter fun p => !dims.contains p

theorem mem_unpromoted {x : String} : x ∈ unpromoted dims params ↔ x ∈ params ∧ x ∉ dims := by
  simp [unpromoted]

theorem unpromoted_append {params' : List String} :
    unpromoted dims (params ++ params') = unpromoted dims params ++ unpromoted dims params' :=
  List.filter_append ..

theorem params_align :
    (s.align t).params = Names.extend []
      (unpromoted (s.align t).dims s.params ++ unpromoted (s.align t).dims t.params) :=
  congrArg (Names.extend []) unpromoted_append

theorem Distinct.unpromoted_params (hs : s.Distinct) : unpromoted s.dims s.params = s.params :=
  List.filter_eq_self.mpr fun p hp => by simpa using (distinct_iff.mp hs).2.2 p hp

theorem unpromoted_params_align (hdims : ∀ x ∈ (s.align t).dims, x ∈ dims) :
    unpromoted dims (s.align t).params =
      Names.extend [] (unpromoted dims s.params ++ unpromoted dims t.params) := by
  have hagain (params : List String) :
      unpromoted dims (unpromoted (s.align t).dims params) = unpromoted dims params := by
    rw [unpromoted, unpromoted, List.filter_filter]
    refine List.filter_congr fun p _ => ?_
    by_cases hp : p ∈ dims
    · simp [hp]
    · simp [hp, mt (hdims p) hp]
  calc unpromoted dims (s.align t).params
      = Names.extend [] (unpromoted dims (unpromoted (s.align t).dims s.params ++
          unpromoted (s.align t).dims t.params)) := by
        rw [params_align]
        exact Names.filter_extend
    _ = Names.extend [] (unpromoted dims s.params ++ unpromoted dims t.params) := by
        rw [unpromoted_append, hagain, hagain]

theorem align_assoc : s.align (t.align u) = (s.align t).align u := by
  have hdims : (s.align (t.align u)).dims = ((s.align t).align u).dims := Names.extend_extend
  have hleft : ∀ x ∈ (s.align t).dims, x ∈ ((s.align t).align u).dims :=
    fun x hx => mem_dims_align.mpr (.inl hx)
  have hright : ∀ x ∈ (t.align u).dims, x ∈ ((s.align t).align u).dims :=
    fun x hx => hdims ▸ mem_dims_align.mpr (.inr hx)
  -- Both groupings keep the parameters of all three spaces outside the dimensions of all three.
  have hparams : (s.align (t.align u)).params = ((s.align t).align u).params := by
    rw [params_align (t := t.align u), params_align (s := s.align t), hdims,
      unpromoted_params_align hleft, unpromoted_params_align hright, Names.extend_once_append,
      Names.extend_append_once, List.append_assoc]
  exact congrArg₂ Space.mk hparams hdims

theorem align_of_subset (hs : s.Distinct) (hdims : ∀ x ∈ t.dims, x ∈ s.dims)
    (hparams : ∀ x ∈ t.params, x ∈ s.names) : s.align t = s := by
  have hsame : (s.align t).dims = s.dims := Names.extend_of_subset hdims
  have honce : Names.extend [] s.params = s.params :=
    Names.extend_of_nodup (distinct_iff.mp hs).1
  refine congrArg₂ Space.mk ?_ hsame
  change (s.align t).params = s.params
  rw [params_align, hsame, hs.unpromoted_params, Names.extend_append, honce]
  refine Names.extend_of_subset fun x hx => ?_
  obtain ⟨hx, hdim⟩ := mem_unpromoted.mp hx
  exact (List.mem_append.mp (hparams x hx)).resolve_right hdim

theorem empty_align (hs : s.Distinct) : empty.align s = s := by
  obtain ⟨hparams, hdims, -⟩ := distinct_iff.mp hs
  have hsame : (empty.align s).dims = s.dims := Names.extend_of_nodup hdims
  refine congrArg₂ Space.mk ?_ hsame
  change (empty.align s).params = s.params
  rw [params_align, hsame, hs.unpromoted_params]
  exact Names.extend_of_nodup hparams

/-- Alignment is an idempotent monoid on spaces that declare every name once: it joins the names and
the dimensions, appending new dimensions behind those of the first space, with the space without
names as its unit. The laws hold for the ordered lists of names themselves. -/
theorem align_monoid (ha : a.Distinct) :
    ((a.align b).names.Nodup ∧
      (∀ x, x ∈ (a.align b).names ↔ x ∈ a.names ∨ x ∈ b.names) ∧
      (∀ x, x ∈ (a.align b).dims ↔ x ∈ a.dims ∨ x ∈ b.dims) ∧
      a.dims <+: (a.align b).dims) ∧
    a.align a = a ∧ a.align empty = a ∧ empty.align a = a ∧
    a.align (b.align c) = (a.align b).align c := by
  have hself : a.align a = a :=
    align_of_subset ha (fun _ => id) fun x hx => List.mem_append.mpr (.inl hx)
  have hunit : a.align empty = a :=
    align_of_subset ha (fun _ h => absurd h List.not_mem_nil) fun _ h => absurd h List.not_mem_nil
  exact ⟨⟨ha.align, fun _ => mem_names_align, fun _ => mem_dims_align, Names.prefix_extend⟩, hself,
    hunit, empty_align ha, align_assoc⟩

def outerLoop : Space := ⟨["n"], ["i"]⟩

def innerLoop : Space := ⟨["n", "i"], ["j"]⟩

def sizeLoop : Space := ⟨["j", "m"], ["n"]⟩

theorem loops_align :
    outerLoop.Distinct ∧ outerLoop.align innerLoop = ⟨["n"], ["i", "j"]⟩ ∧
      (outerLoop.align innerLoop).names.Nodup ∧
      innerLoop.align sizeLoop = ⟨["i", "m"], ["j", "n"]⟩ ∧
      outerLoop.align (innerLoop.align sizeLoop) = (outerLoop.align innerLoop).align sizeLoop ∧
      (outerLoop.align innerLoop).align sizeLoop = ⟨["m"], ["i", "j", "n"]⟩ := by
  have hdistinct : outerLoop.Distinct := by decide
  obtain ⟨⟨hnodup, -⟩, -, -, -, hassoc⟩ :=
    align_monoid (b := innerLoop) (c := sizeLoop) hdistinct
  exact ⟨hdistinct, rfl, hnodup, rfl, hassoc, rfl⟩

end Space

end LoopAudit
