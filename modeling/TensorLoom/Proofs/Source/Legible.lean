import TensorLoom.Proofs.Source.Plan
import TensorLoom.Proofs.Source.Transcript

/-!
# Generated sources can be read

The symbolic indices of a plan are names and numbers, so what is generated for them is written so
that it is read as it is meant (`Kernel.Ordered.readable_source`).
-/

namespace TensorLoom

open IndexExpr (Readable)

/-! ## Grids -/

namespace Grid

variable {sizes : List Nat} {grid : Grid}

/-- The names of a grid are names of indices. -/
theorem readable_names (h : ofSizes sizes = .ok grid) : ∀ e ∈ grid.names, Readable .factor e := by
  rcases ofSizes_eq_ok h with ⟨-, rfl⟩ | ⟨-, -, rfl⟩ | ⟨-, leading, y, z, -, -, h⟩
  · exact List.forall_mem_nil _
  · intro e he
    obtain ⟨d, -, rfl⟩ := List.mem_map.mp he
    exact .name (isIdentifier_globalName d).isAtom
  · obtain ⟨parts, -, rfl⟩ := merged_eq_ok h
    intro e he
    simp only [List.mem_append, List.mem_map, List.mem_cons, List.not_mem_nil, or_false] at he
    rcases he with ⟨i, -, rfl⟩ | rfl | rfl
    · exact .name (isIdentifier_mergedName i).isAtom
    · exact .name (isIdentifier_globalName 1).isAtom
    · exact .name (isIdentifier_globalName 2).isAtom

/-- No index of a grid is defined twice. -/
theorem nodup_definitions (h : ofSizes sizes = .ok grid) :
    (grid.definitions.map IndexDefinition.name).Nodup := by
  rcases ofSizes_eq_ok h with ⟨-, rfl⟩ | ⟨-, -, rfl⟩ | ⟨-, leading, y, z, -, -, h⟩
  · exact List.nodup_nil
  · rw [separate, List.map_map]
    exact List.nodup_range.map fun _ _ h => globalName_inj h
  · obtain ⟨parts, hparts, rfl⟩ := merged_eq_ok h
    have hnames : parts.map IndexDefinition.name =
        (List.range leading.length).map mergedName := by
      refine List.ext_getElem (by simp [← (mapM_eq_ok hparts).length_eq]) fun i hi _ => ?_
      rw [List.length_map] at hi
      have hpart := (List.forall₂_iff_get.mp (mapM_eq_ok hparts)).2 i
        ((mapM_eq_ok hparts).length_eq ▸ hi) hi
      simp only [List.get_eq_getElem, List.getElem_zipIdx, Nat.zero_add] at hpart
      rw [List.getElem_map, (mergedAxis_yields _ _ _).eq_of_ok hpart]
      simp [IndexDefinition.name]
    have hmerged : ((List.range leading.length).map mergedName).Nodup :=
      List.nodup_range.map fun _ _ h => mergedName_inj h
    have hglobal : ∀ d, globalName d ∉ (List.range leading.length).map mergedName := by
      intro d hd
      obtain ⟨i, -, hi⟩ := List.mem_map.mp hd
      exact globalName_ne_mergedName d i hi.symm
    have hdistinct : ∀ {m n}, m ≠ n → globalName m ≠ globalName n := fun hne h =>
      hne (globalName_inj h)
    simp only [List.cons_append, List.map_cons, List.map_append, hnames, List.map_nil,
      IndexDefinition.name, List.nodup_cons, List.nodup_append, List.mem_append, List.mem_cons,
      List.not_mem_nil, or_false, not_or]
    refine ⟨⟨hglobal 0, hdistinct (by decide), hdistinct (by decide)⟩, hmerged,
      ⟨hdistinct (by decide), id, List.nodup_nil⟩, ?_⟩
    rintro x hx y (rfl | rfl) rfl
    · exact hglobal 1 hx
    · exact hglobal 2 hx

end Grid

namespace Plan.Fits

variable {p : Plan} {k : Kernel} {spans reduced sizes outs : List Nat}

theorem readable_inside (h : p.Fits k spans reduced sizes outs) (u : List Nat) :
    ∀ e ∈ p.inside u, Readable .factor e := by
  intro e he
  simp only [inside, literals, List.mem_append, List.mem_map] at he
  rcases he with (he | ⟨l, -, rfl⟩) | ⟨i, -, rfl⟩
  · exact Grid.readable_names h.grid e he
  · exact .name (isIdentifier_loopName l.axis).isAtom
  · exact .literal i

theorem readable_behind (h : p.Fits k spans reduced sizes outs) (u : List Nat) :
    ∀ e ∈ p.behind u, Readable .factor e := by
  intro e he
  simp only [behind, literals, List.mem_append, List.mem_map] at he
  rcases he with (he | ⟨l, -, rfl⟩) | ⟨i, -, rfl⟩
  · exact Grid.readable_names h.grid e he
  · exact .literal 0
  · exact .literal i

end Plan.Fits

/-! ## Values and stores -/

namespace Kernel

variable {k : Kernel} {idx : List IndexExpr}

theorem readable_loadValue (hidx : ∀ e ∈ idx, Readable .factor e) {number : Nat} {v : Value}
    (h : k.loadValue idx number = .ok v) : v.Readable := by
  obtain ⟨o, -, h⟩ := bind_eq_ok.mp h
  obtain ⟨address, haddress, h⟩ := bind_eq_ok.mp h
  obtain rfl := pure_eq_ok.mp h
  split
  · trivial
  · exact Tracker.readable_addressFrom hidx haddress

theorem readable_symbolicValue (hidx : ∀ e ∈ idx, Readable .factor e) {reduced : Value}
    (hreduced : reduced.Readable) {t : OpTree Nat} {v : Value}
    (h : k.symbolicValue idx reduced t = .ok v) : v.Readable := by
  fun_induction k.symbolicValue idx reduced t generalizing v with
  | case1 number => exact readable_loadValue hidx h
  | case2 id op x ih =>
    obtain ⟨w, hw, h⟩ := bind_eq_ok.mp h
    obtain rfl := pure_eq_ok.mp h
    exact (ih hw : w.Readable)
  | case3 id op a b iha ihb =>
    obtain ⟨w, hw, h⟩ := bind_eq_ok.mp h
    obtain ⟨w', hw', h⟩ := bind_eq_ok.mp h
    obtain rfl := pure_eq_ok.mp h
    exact ⟨iha hw, ihb hw'⟩
  | case4 => exact pure_eq_ok.mp h ▸ hreduced
  | case5 => exact pure_eq_ok.mp h ▸ trivial

theorem readable_storeAt (hidx : ∀ e ∈ idx, Readable .factor e) {reduced : Value}
    (hreduced : reduced.Readable) {t : Store} (h : k.storeAt idx reduced = .ok t) :
    t.position.Readable .factor ∧ t.value.Readable := by
  obtain ⟨value, hvalue, h⟩ := bind_eq_ok.mp h
  obtain ⟨address, haddress, h⟩ := bind_eq_ok.mp h
  obtain rfl := pure_eq_ok.mp h
  exact ⟨(Tracker.readable_addressFrom hidx haddress).position,
    readable_symbolicValue hidx hreduced hvalue⟩

/-! ## Sources -/

/-- The name of a kernel is a word. -/
theorem isIdentifier_name {name : String} (h : k.name = .ok name) : IsIdentifier name := by
  obtain ⟨loops, -, h⟩ := bind_eq_ok.mp h
  obtain rfl := pure_eq_ok.mp h
  have hkind : IsIdentifier (if k.reduction?.isSome then "r" else "E") := by
    split
    · exact ⟨List.all_eq_true.mp rfl, 'r', [], rfl, rfl⟩
    · exact ⟨List.all_eq_true.mp rfl, 'E', [], rfl, rfl⟩
  generalize (if k.reduction?.isSome then "r" else "E") = text at hkind
  induction k.space.take loops generalizing text with
  | nil => exact hkind
  | cons size sizes ih =>
    refine ih _ ?_
    have hblank : IsIdentifier (text ++ "_") := hkind.append (List.all_eq_true.mp rfl)
    simpa [toString] using hblank.numbered size

/-- A source has the name of its kernel, and a parameter for each operand. -/
theorem source_head {src : KernelSource} (h : k.source = .ok src) :
    k.name = .ok src.name ∧ src.buffers = k.operands.length := by
  obtain ⟨name, hname, h⟩ := bind_eq_ok.mp h
  obtain ⟨p, -, h⟩ := bind_eq_ok.mp h
  cases hr : k.reduced? with
  | none =>
    rw [hr] at h
    obtain ⟨stores, -, h⟩ := bind_eq_ok.mp h
    obtain rfl := pure_eq_ok.mp h
    exact ⟨hname, rfl⟩
  | some found =>
    rw [hr] at h
    obtain ⟨a, -, h⟩ := bind_eq_ok.mp h
    obtain ⟨stores, -, h⟩ := bind_eq_ok.mp h
    obtain rfl := pure_eq_ok.mp h
    exact ⟨hname, rfl⟩

/-- The source of a kernel whose axes are arranged can be read. -/
theorem Ordered.readable_source (ho : k.Ordered) (hk : k.Shaped) {src : KernelSource}
    (h : k.source = .ok src) : src.Readable := by
  obtain ⟨hname, hbuffers⟩ := source_head h
  have hname := isIdentifier_name hname
  have hbuffers : 0 < src.buffers := by
    rw [hbuffers]
    exact Nat.succ_pos _
  have hzero : Value.zero.Readable := trivial
  have haccumulator : ∀ n, (Value.accumulator n).Readable := fun _ => trivial
  cases hr : k.reduced? with
  | none =>
    obtain ⟨p, hplan, -, hdefinitions, haccumulation, hstores⟩ := source_whole hr h
    obtain ⟨spans, reduced, sizes, outs, hp⟩ := ho.fits hk hplan
    have hspans : ∀ d ∈ spans, 0 < d := fun d hd =>
      hk.positive d (hp.space ▸ List.mem_append_left _ hd)
    refine ⟨hname, hbuffers, ?_, by simp [haccumulation], fun t ht => ?_, ?_,
      by simp [haccumulation]⟩
    · exact hdefinitions ▸ Grid.legible_ofSizes hspans hp.grid
    · obtain ⟨u, -, hstore⟩ := exists_of_forall₂_right hstores ht
      exact readable_storeAt (hp.readable_inside u) hzero hstore
    · exact hdefinitions ▸ Grid.nodup_definitions hp.grid
  | some found =>
    obtain ⟨op, operand⟩ := found
    obtain ⟨p, a, hplan, ha, -, hdefinitions, haccumulation, hstores⟩ := source_reduced hr h
    obtain ⟨spans, reduced, sizes, outs, hp⟩ := ho.fits hk hplan
    have hspans : ∀ d ∈ spans, 0 < d := fun d hd =>
      hk.positive d (hp.space ▸ List.mem_append_left _ hd)
    obtain ⟨updates, hupdates, ha⟩ := bind_eq_ok.mp ha
    obtain rfl := pure_eq_ok.mp ha
    refine ⟨hname, hbuffers, ?_, ?_, fun t ht => ?_, ?_, ?_⟩
    · exact hdefinitions ▸ Grid.legible_ofSizes hspans hp.grid
    · intro a ha u hu
      obtain rfl := Option.some.inj (haccumulation.symm.trans ha)
      obtain ⟨i, -, hu⟩ := exists_of_forall₂_right (mapM_eq_ok hupdates) hu
      obtain ⟨v, hv, hu⟩ := bind_eq_ok.mp hu
      obtain rfl := pure_eq_ok.mp hu
      exact readable_symbolicValue (hp.readable_inside i) hzero hv
    · obtain ⟨⟨u, n⟩, -, hstore⟩ := exists_of_forall₂_right hstores ht
      exact readable_storeAt (hp.readable_behind _) (haccumulator n) hstore
    · exact hdefinitions ▸ Grid.nodup_definitions hp.grid
    · intro a ha
      obtain rfl := Option.some.inj (haccumulation.symm.trans ha)
      exact hp.axes

end Kernel

end TensorLoom
