import TensorLoom.Proofs.Device.Requests
import TensorLoom.Proofs.Source.Existence

/-!
# What a source is launched over

A source is run by one work item for each index of the axes that the output spans. Its grid has at
most three dimensions and none of them is empty, so its launch shape is accepted
(`Kernel.Shaped.exists_launch`). A device then compiles the kernel, unless it rejects the text of
the source (`Kernel.answers_compile`).
-/

namespace TensorLoom

namespace LaunchShape

/-- Up to three sizes, none of them 0, are a launch shape. -/
theorem exists_ofSizes {sizes : List Nat} (hlen : sizes.length ≤ 3) (hp : ∀ d ∈ sizes, 0 < d) :
    ∃ launch, ofSizes sizes none = .ok launch ∧ (∀ d ∈ launch.globalSize.toList, 0 < d) ∧
      launch.globalSize.toList.prod = sizes.prod := by
  match sizes, hlen with
  | [], _ => exact ⟨_, rfl, by decide, rfl⟩
  | [x], _ =>
    have hx := hp x (by simp)
    exact ⟨⟨⟨x, 1, 1⟩, .one⟩, by
      simp [ofSizes, Extent.ofList?, isEven, Extent.toList, Extent.one, hx, Nat.mod_one],
      by simp [Extent.toList, hx], by simp [Extent.toList]⟩
  | [x, y], _ =>
    have hx := hp x (by simp)
    have hy := hp y (by simp)
    exact ⟨⟨⟨x, y, 1⟩, .one⟩, by
      simp [ofSizes, Extent.ofList?, isEven, Extent.toList, Extent.one, hx, hy, Nat.mod_one],
      by simp [Extent.toList, hx, hy], by simp [Extent.toList]⟩
  | [x, y, z], _ =>
    have hx := hp x (by simp)
    have hy := hp y (by simp)
    have hz := hp z (by simp)
    exact ⟨⟨⟨x, y, z⟩, .one⟩, by
      simp [ofSizes, Extent.ofList?, isEven, Extent.toList, Extent.one, hx, hy, hz, Nat.mod_one],
      by simp [Extent.toList, hx, hy, hz], by simp [Extent.toList]⟩

/-- The work items are counted if a word holds their number. -/
theorem workItems_eq {launch : LaunchShape} (hp : ∀ d ∈ launch.globalSize.toList, 0 < d)
    (h : launch.globalSize.toList.prod < Word.bound) :
    launch.workItems = .ok launch.globalSize.toList.prod :=
  Shape.size_eq hp h

end LaunchShape

/-- The dimensions of a grid hold the indices of its axes. -/
theorem Grid.prod_globalSize {sizes : List Nat} {grid : Grid} (hp : ∀ d ∈ sizes, 0 < d)
    (h : ofSizes sizes = .ok grid) :
    grid.globalSize.length ≤ 3 ∧ (∀ d ∈ grid.globalSize, 0 < d) ∧
      grid.globalSize.prod = sizes.prod := by
  rcases ofSizes_eq_ok h with ⟨rfl, rfl⟩ | ⟨-, hlen, rfl⟩ | ⟨-, leading, y, z, rfl, -, h⟩
  · exact ⟨by decide, by decide, rfl⟩
  · exact ⟨hlen, hp, rfl⟩
  · obtain ⟨_, -, rfl⟩ := merged_eq_ok h
    have hleading : 0 < leading.prod :=
      Shape.prod_pos fun d hd => hp d (List.mem_append_left _ hd)
    refine ⟨Nat.le_refl 3, fun d hd => ?_, ?_⟩
    · rcases List.mem_cons.mp hd with rfl | hd
      · exact hleading
      · exact hp d (List.mem_append_right _ hd)
    · rw [List.prod_cons, List.prod_append]

namespace Kernel

variable {k : Kernel} {src : KernelSource}

/-- A source is run over at most three dimensions, none of them empty, which hold the indices of the
axes that the output spans. -/
theorem Shaped.globalSize_spans (hk : k.Shaped) (h : k.source = .ok src) :
    src.globalSize.length ≤ 3 ∧ (∀ d ∈ src.globalSize, 0 < d) ∧
      ∃ spanned, k.spanned = .ok spanned ∧ src.globalSize.prod = (k.space.take spanned).prod := by
  obtain ⟨p, hp, hsize⟩ := source_grid h
  obtain ⟨_, -, hp⟩ := bind_eq_ok.mp hp
  obtain ⟨spanned, hspanned, hp⟩ := bind_eq_ok.mp hp
  obtain ⟨grid, hgrid, hp⟩ := bind_eq_ok.mp hp
  obtain ⟨_, -, hp⟩ := bind_eq_ok.mp hp
  obtain ⟨_, -, hp⟩ := bind_eq_ok.mp hp
  obtain rfl := pure_eq_ok.mp hp
  obtain ⟨hlen, hpos, hprod⟩ :=
    Grid.prod_globalSize (fun d hd => hk.positive d (List.mem_of_mem_take hd)) hgrid
  rw [hsize]
  exact ⟨hlen, hpos, spanned, hspanned, hprod⟩

/-- The launch shape of a source is accepted. -/
theorem Shaped.exists_launch (hk : k.Shaped) (h : k.source = .ok src) :
    ∃ launch, LaunchShape.ofSizes src.globalSize none = .ok launch ∧
      (∀ d ∈ launch.globalSize.toList, 0 < d) ∧
      launch.globalSize.toList.prod = src.globalSize.prod := by
  obtain ⟨hlen, hpos, -⟩ := hk.globalSize_spans h
  exact LaunchShape.exists_ofSizes hlen hpos

section Compile

variable {τ : Type} {d : Device τ}

/-- What a device makes of a kernel: nothing, if it rejects the text of its source. -/
def compiledFor (d : Device τ) (k : Kernel) : Attempt KernelError CompiledKernel := do
  let source ← k.source
  let launch ← (LaunchShape.ofSizes source.globalSize none).mapError fun e =>
    Stop.refused (KernelError.device e)
  if d.rejects source.text then refuse (.device (.rejected source.name))
  else pure ⟨⟨source.name, source.text⟩, launch⟩

theorem answers_compile (d : Device τ) (k : Kernel) {costs : Nat → Prop} :
    DeviceM.Answers d costs k.compile (k.compiledFor d) := by
  refine .bind (.checked _) fun source _ => .bind (.lift _) fun launch _ d₁ hd => ?_
  rw [DeviceM.exec_bind, DeviceM.exec_request, Device.compile, ← hd.rejects]
  by_cases hrejects : d₁.rejects source.text = true
  · rw [if_pos hrejects, if_pos hrejects]
    exact ⟨hd, .inl rfl⟩
  · rw [if_neg hrejects, if_neg hrejects]
    exact ⟨hd.trans ⟨rfl, rfl, rfl, rfl⟩, rfl⟩

theorem compiledFor_eq_ok {launch : LaunchShape} (h : k.source = .ok src)
    (hlaunch : LaunchShape.ofSizes src.globalSize none = .ok launch)
    (hd : ∀ text, d.rejects text = false) :
    k.compiledFor d = .ok ⟨⟨src.name, src.text⟩, launch⟩ := by
  refine bind_eq_ok.mpr ⟨src, liftM_eq_ok.mpr h, bind_eq_ok.mpr
    ⟨launch, mapError_eq_ok.mpr hlaunch, ?_⟩⟩
  rw [hd, if_neg Bool.false_ne_true]
  rfl

/-- A device that rejects nothing compiles the source of a kernel for its launch shape. -/
theorem Shaped.exec_compile (hk : k.Shaped) (h : k.source = .ok src) :
    ∃ launch, LaunchShape.ofSizes src.globalSize none = .ok launch ∧
      ∀ (τ : Type) (d : Device τ), (∀ text, d.rejects text = false) →
        (DeviceM.exec k.compile d).1 = .ok ⟨⟨src.name, src.text⟩, launch⟩ := by
  obtain ⟨launch, hlaunch, -⟩ := hk.exists_launch h
  exact ⟨launch, hlaunch, fun τ d hd =>
    (answers_compile d k).exec_eq.trans (compiledFor_eq_ok h hlaunch hd)⟩

/-- On a device that rejects nothing a kernel is compiled, unless a number or a table in its source
is too large. -/
theorem Shaped.compile_meets (hk : k.Shaped) (hn : k.Numbered)
    (hd : ∀ text, d.rejects text = false) :
    Meets (DeviceM.exec k.compile d).1 (Stop.OfSize ¬ (k.Counted ∧ TableFits k.unrolledSizes))
      fun _ => TableFits k.unrolledSizes := by
  rw [(answers_compile d k).exec_eq, compiledFor]
  refine .bind ((hk.source_meets hn).lift.and_of_ok fun src => liftM_eq_ok.mp) ?_
  rintro src ⟨hfits, hsource⟩
  obtain ⟨launch, hlaunch, -⟩ := hk.exists_launch hsource
  refine .bind (P := fun _ => True) (.of_eq_ok (mapError_eq_ok.mpr hlaunch) trivial) fun _ _ => ?_
  rw [hd, if_neg Bool.false_ne_true]
  exact .pure hfits

end Compile

end Kernel

end TensorLoom
