import LoopAudit.Proofs.LocalMemory

/-! Devices with wider limits. Each check of a kernel compares something that the device has no part
in with one of its limits, so a device that is no stricter in any of them finds no worse problem,
and keeps every kernel that the other one keeps. -/

namespace LoopAudit

/-- The device is at least as permissive as another one. An axis without a limit has the widest, and
cached local memory is the milder kind. -/
structure Device.Relaxes (wide narrow : Device) : Prop where
  dimensions : narrow.maxDimensions ≤ wide.maxDimensions
  itemSizes : ∀ (axis : Nat) (limit : Int), wide.maxItemSizes[axis]? = some limit →
    ∃ limit', narrow.maxItemSizes[axis]? = some limit' ∧ limit' ≤ limit
  groupSize : narrow.maxGroupSize ≤ wide.maxGroupSize
  localMemorySize : narrow.localMemorySize ≤ wide.localMemorySize
  localMemory : wide.localMemory = narrow.localMemory ∨
    narrow.localMemory = .dedicated ∧ wide.localMemory = .cached
  constantArgs : narrow.maxConstantArgs ≤ wide.maxConstantArgs

namespace Advisory

variable {wide narrow : Device} {k : Kernel} {values : Assignment} {sizes : List Int}
  {problems ps qs ps' qs' : List Problem} {n : Nat}

section Severity

def Outweighs (qs ps : List Problem) : Prop := ∀ p ∈ ps, ∃ q ∈ qs, p.severity ≤ q.severity

theorem Outweighs.nil : Outweighs qs [] := nofun

theorem Outweighs.refl : Outweighs ps ps := fun p hp => ⟨p, hp, le_rfl⟩

theorem Outweighs.append (h : Outweighs qs ps) (h' : Outweighs qs' ps') :
    Outweighs (qs ++ qs') (ps ++ ps') := by
  refine List.forall_mem_append.mpr ⟨fun p hp => ?_, fun p hp => ?_⟩
  · obtain ⟨q, hq, hle⟩ := h p hp
    exact ⟨q, List.mem_append_left _ hq, hle⟩
  · obtain ⟨q, hq, hle⟩ := h' p hp
    exact ⟨q, List.mem_append_right _ hq, hle⟩

theorem Consistent.maxSeverity_mono {a b : Advisory} (ha : a.Consistent) (hb : b.Consistent)
    (h : Outweighs b.messages a.messages) : a.maxSeverity ≤ b.maxSeverity := by
  by_cases hnil : a.messages = []
  · rw [ha.zero hnil]
    exact Nat.zero_le _
  · obtain ⟨p, hp, hmax⟩ := ha.attained hnil
    obtain ⟨q, hq, hle⟩ := h p hp
    exact hmax ▸ hle.trans (hb.le q hq)

theorem Outweighs.ite {c d : Prop} [Decidable c] [Decidable d] {p q : Problem} (hcd : c → d)
    (hpq : p.severity ≤ q.severity) :
    Outweighs (if d then [q] else []) (if c then [p] else []) := by
  by_cases hc : c
  · rw [if_pos hc, if_pos (hcd hc)]
    exact List.forall_mem_singleton.mpr ⟨q, List.mem_singleton.mpr rfl, hpq⟩
  · rw [if_neg hc]
    exact .nil

end Severity

section Limits

theorem dimensionProblems_outweigh (h : wide.Relaxes narrow) :
    Outweighs (dimensionProblems k narrow) (dimensionProblems k wide) :=
  .ite (lt_of_le_of_lt h.dimensions) le_rfl

theorem argumentProblems_outweigh (h : wide.Relaxes narrow) :
    Outweighs (argumentProblems k narrow) (argumentProblems k wide) :=
  .ite (lt_of_le_of_lt h.constantArgs) le_rfl

theorem mem_axisProblems {device : Device} {p : Problem} : p ∈ axisProblems device sizes ↔
    ∃ (size limit : Int) (axis : Nat), sizes[axis]? = some size ∧
      device.maxItemSizes[axis]? = some limit ∧ limit < size ∧
      ⟨5, "local axis " ++ Decimal.text axis ++ " too big"⟩ = p := by
  simp only [axisProblems, List.mem_filterMap, Prod.exists, List.mem_zipIdx_iff_getElem?,
    List.getElem?_zip_eq_some, Option.ite_none_right_eq_some, exceeds, decide_eq_true_iff,
    Option.some.injEq, and_assoc]

theorem axisProblems_outweigh (h : wide.Relaxes narrow) :
    Outweighs (axisProblems narrow sizes) (axisProblems wide sizes) := by
  intro p hp
  obtain ⟨size, limit, axis, hsize, hlimit, hlt, rfl⟩ := mem_axisProblems.mp hp
  obtain ⟨limit', hlimit', hle⟩ := h.itemSizes axis limit hlimit
  have hmem := mem_axisProblems.mpr ⟨size, limit', axis, hsize, hlimit', hle.trans_lt hlt, rfl⟩
  exact ⟨_, hmem, le_rfl⟩

theorem groupProblems_outweigh (h : wide.Relaxes narrow) :
    Outweighs (groupProblems narrow sizes) (groupProblems wide sizes) := by
  unfold groupProblems
  cases product 1 sizes with
  | error e => exact .refl
  | ok size =>
    refine .ite (fun hexceeds => ?_) le_rfl
    rw [exceeds, decide_eq_true_iff] at hexceeds ⊢
    exact h.groupSize.trans_lt hexceeds

theorem sizeProblems_outweigh (h : wide.Relaxes narrow) :
    Outweighs (sizeProblems k narrow values) (sizeProblems k wide values) := by
  unfold sizeProblems
  cases itemSizes k values with
  | error e => exact .refl
  | ok sizes => exact (axisProblems_outweigh h).append (groupProblems_outweigh h)

theorem memoryExceeded_le (h : wide.Relaxes narrow) :
    (memoryExceeded wide.localMemory).severity ≤ (memoryExceeded narrow.localMemory).severity := by
  rcases h.localMemory with hsame | ⟨hnarrow, hwide⟩
  · rw [hsame]
  · rw [hnarrow, hwide]
    decide

theorem memoryProblems_outweigh (h : wide.Relaxes narrow) :
    Outweighs (memoryProblems k narrow values) (memoryProblems k wide values) := by
  unfold memoryProblems
  cases localMemoryUse k values with
  | error e => exact .refl
  | ok used =>
    refine .ite (fun hexceeds => ?_) (memoryExceeded_le h)
    rw [exceeds, decide_eq_true_iff] at hexceeds ⊢
    exact h.localMemorySize.trans_lt hexceeds

theorem advise_outweighs (h : wide.Relaxes narrow) :
    Outweighs (advise k narrow values).messages (advise k wide values).messages := by
  rw [advise_messages, advise_messages]
  exact (((dimensionProblems_outweigh h).append (sizeProblems_outweigh h)).append
    (memoryProblems_outweigh h)).append (argumentProblems_outweigh h)

/-- The severity stored for a kernel is that of one of the problems reported, and no other is more
severe. On a device that is at least as permissive it is no greater, so that the variants kept there
include those kept on the other device, in the same order. -/
theorem advise_antitone (values : Assignment) :
    (∀ k device,
      (∀ p ∈ (advise k device values).messages,
        p.severity ≤ (advise k device values).maxSeverity) ∧
      ((advise k device values).messages = [] → (advise k device values).maxSeverity = 0) ∧
      ((advise k device values).messages ≠ [] →
        ∃ p ∈ (advise k device values).messages,
          p.severity = (advise k device values).maxSeverity)) ∧
    ∀ wide narrow : Device, wide.Relaxes narrow →
      (∀ k, (advise k wide values).maxSeverity ≤ (advise k narrow values).maxSeverity) ∧
      ∀ policy ks, (filterVariants narrow values policy ks).Sublist
        (filterVariants wide values policy ks) := by
  refine ⟨fun k device => ?_, fun wide narrow h => ?_⟩
  · have hstored : (advise k device values).Consistent := advise_consistent
    exact ⟨hstored.le, hstored.zero, hstored.attained⟩
  · have hle (k : Kernel) :
        (advise k wide values).maxSeverity ≤ (advise k narrow values).maxSeverity :=
      advise_consistent.maxSeverity_mono advise_consistent (advise_outweighs h)
    refine ⟨hle, fun policy ks => List.monotone_filter_right ks fun k hk => ?_⟩
    rw [survives, decide_eq_true_iff] at hk ⊢
    exact (hle k).trans_lt hk

def cachedGpu : Device := ⟨3, [1024, 2048], 2048, 65535, .cached, 8⟩

theorem cachedGpu_relaxes : cachedGpu.Relaxes smallGpu where
  dimensions := by decide
  itemSizes := by
    rintro (_ | _ | axis) limit hlimit
    · exact ⟨1024, rfl, (Option.some.inj hlimit).le⟩
    · exact ⟨1024, rfl, (Option.some.inj hlimit) ▸ by decide⟩
    · cases hlimit
  groupSize := by decide
  localMemorySize := by decide
  localMemory := .inr ⟨rfl, rfl⟩
  constantArgs := by decide

theorem cachedGpu_advise : cachedGpu.Relaxes smallGpu ∧
    (advise squareTile cachedGpu [("n", 128)]).maxSeverity = 4 ∧
    (advise squareTile cachedGpu [("n", 128)]).maxSeverity ≤
      (advise squareTile smallGpu [("n", 128)]).maxSeverity ∧
    filterVariants smallGpu [("n", 128)] .standard [.blank, squareTile] = [.blank] ∧
    [Kernel.blank].Sublist
      (filterVariants cachedGpu [("n", 128)] .standard [.blank, squareTile]) := by
  obtain ⟨hle, hsub⟩ := (advise_antitone [("n", 128)]).2 _ _ cachedGpu_relaxes
  have hkept : filterVariants smallGpu [("n", 128)] .standard [.blank, squareTile] = [.blank] := rfl
  exact ⟨cachedGpu_relaxes, rfl, hle squareTile, hkept, hkept ▸ hsub .standard [.blank, squareTile]⟩

end Limits

end Advisory

end LoopAudit
