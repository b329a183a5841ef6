import TensorLoom.Proofs.Session.Program

/-!
# Fusion changes nothing

What a program means is told without any session: each tensor has a shape and a value, or the
command that was to make it is refused (`Session.meanings`). `Session.Run.commands_describe` says
that a session makes just these tensors under all rules of fusion, whatever is realized on the way,
so two runs of a program under different rules agree (`Session.fused_agrees_unfused`).
-/

namespace TensorLoom.Session

variable {ε : Type} {used : Op → Prop} {rule : ConvolutionRule} {s s' : Session}
  {r r' : OpTree.Register TensorId}

/-! ## Meanings -/

/-- A shape, and the value of a tensor of this shape if evaluation does not give up. -/
abbrev Meaning := List Nat × Option (Dense Float32)

/-- The value of the tensor, given the shapes and the values of the operands. -/
def Construct.value (rule : ConvolutionRule) : Construct Meaning → Option (Dense Float32)
  | host shape data => if Shape.Addressable shape then some ⟨shape, data.toList⟩ else none
  | elementwise op operands => op.value? rule (operands.map (·.2))
  | movement m (shape, v) => movedValue m shape v
  | reduce op (_, v) target => (Op.reduce op target).value? rule [v]
  | convolve (_, v) (_, w) args => (Op.convolution args).value? rule [v, w]

/-- What making a tensor means, or why it is not made. -/
def Construct.meaning (rule : ConvolutionRule) (c : Construct Meaning) :
    Except (Stop SessionError) Meaning := do
  return (← (c.map Prod.fst).shape, c.value rule)

/-- What a command means after others. Realizing a tensor makes none. -/
def Command.meaning (rule : ConvolutionRule)
    (made : List (Option (Except (Stop SessionError) Meaning))) :
    Command → Option (Except (Stop SessionError) Meaning)
  | .construct c => (c.lookup (result? made)).map (Construct.meaning rule)
  | .realize _ => none
  | .realizeTensor _ => none

/-- What the commands of a program mean, one after the other. -/
def meanings (rule : ConvolutionRule) (made : List (Option (Except (Stop SessionError) Meaning)))
    (commands : List Command) : List (Option (Except (Stop SessionError) Meaning)) :=
  commands.foldl (fun made command => made ++ [command.meaning rule made]) made

/-- A tensor has this shape and this value. -/
def Describes (rule : ConvolutionRule) (s : Session) (x : TensorId) (meaning : Meaning) : Prop :=
  s.shape? x = some meaning.1 ∧ s.value rule x = meaning.2

/-- The value of a tensor stays what it is. -/
theorem Grows.value (g : Grows s r s' r') (h : Coherent used s r) {x : TensorId}
    (hx : x < s.tensors.size) : s'.value rule x = s.value rule x := by
  induction x using Nat.strongRecOn with
  | ind x ih =>
    obtain ⟨⟨shape, content⟩, ht⟩ : ∃ t, s.tensors[x]? = some t :=
      ⟨_, Array.getElem?_eq_getElem hx⟩
    have ht' := g.tensors x _ ht
    cases content with
    | host data => rw [value_host rule ht, value_host rule ht']
    | deferred category tree =>
      rw [value_deferred rule ht fun _ hz => h.older ht hz,
        value_deferred rule ht' fun _ hz => h.older ht hz]
      exact OpTree.value?_congr fun z hz =>
        ih z (h.older ht hz) (Nat.lt_trans (h.older ht hz) hx)

theorem Describes.grow {x : TensorId} {meaning : Meaning} (hx : Describes rule s x meaning)
    (h : Coherent used s r) (g : Grows s r s' r') : Describes rule s' x meaning :=
  ⟨g.shape? hx.1, (g.value h (lt_of_shape? hx.1)).trans hx.2⟩

/-- The value of a tensor is that of the operands it is made of. -/
theorem Coherent.value_madeBy (h : Coherent used s r)
    (hzero : s.rules.pushPads = true → ∀ op, used op → op.SendsZeros) {y : TensorId}
    {c : Construct TensorId} {c' : Construct Meaning} (of : MadeBy used s y c)
    (hc : Construct.Rel (Describes rule s) c c') : s.value rule y = c'.value rule := by
  cases hc with
  | host shape data =>
    rcases of with ⟨hy⟩
    exact value_host rule hy
  | elementwise op hxs =>
    rcases of with _ | ⟨of⟩
    rw [h.value_pointwise of]
    refine congrArg _ (forall₂_eq_map (List.forall₂_map_right_iff.mpr ?_)).symm
    exact hxs.imp fun _ _ hx => hx.2.symm
  | @movement m x d hx =>
    rcases of with _ | _ | ⟨of⟩
    rw [h.value_movement hzero of hx.1, hx.2]
    rfl
  | @reduce op x d target hx =>
    rcases of with _ | _ | _ | ⟨hy⟩
    rw [value_deferred rule hy fun _ hz => h.older hy hz, OpTree.value?, List.map_singleton,
      OpTree.value?, hx.2]
    rfl
  | @convolve x w d d' args hx hw =>
    rcases of with _ | _ | _ | _ | ⟨hy⟩
    rw [value_deferred rule hy fun _ hz => h.older hy hz, OpTree.value?, List.map_cons,
      List.map_singleton, OpTree.value?, OpTree.value?, hx.2, hw.2]
    rfl

/-- A step makes a tensor of the right shape and value, or is refused for the right reason. -/
theorem Coherent.exec_meaning (h : Coherent used s r)
    (hzero : s.rules.pushPads = true → ∀ op, used op → op.SendsZeros) {c : Construct TensorId}
    {c' : Construct Meaning} (hc : Construct.Rel (Describes rule s) c c')
    (hused : ∀ op xs, c = .elementwise op xs → used op) :
    ∃ s' r', (exec c.step s).2 = s' ∧ Advances used s r s' r' ∧
      Alike (Describes rule s') (exec c.step s).1 (c'.meaning rule) := by
  have hshapes : Construct.Rel (fun x d => s.shape? x = some d) c (c'.map Prod.fst) :=
    (hc.imp fun _ _ hx => hx.1).map_right
  unfold Construct.meaning
  rcases h.exec_construct hshapes hused with
    ⟨e, hshape, hrun⟩ | ⟨y, shape, s', r', hshape, hrun, advances, hy, of⟩
  · rw [hrun, hshape]
    exact ⟨s, r, rfl, .refl h, .error e⟩
  · rw [hrun, hshape]
    refine ⟨s', r', rfl, advances, .ok ⟨hy, ?_⟩⟩
    exact advances.coherent.value_madeBy (advances.grows.rules ▸ hzero) of
      (hc.imp fun _ _ hx => hx.grow h advances.grows)

/-! ## Runs -/

namespace Run

variable {σ : Type}

/-- A run has made what it was to make. -/
structure Sound (used : Op → Prop) (rule : ConvolutionRule) (rules : FusionRules) (run : Run σ)
    (made : List (Option (Except (Stop SessionError) Meaning))) : Prop where
  rules : run.session.rules = rules
  coherent : ∃ r, Coherent used run.session r
  made : List.Forall₂ (Option.Rel (Alike (Describes rule run.session))) run.made made

theorem sound_start (used : Op → Prop) (rule : ConvolutionRule) (rules : FusionRules) (device : σ) :
    Sound used rule rules (start rules device) [] :=
  ⟨rfl, ⟨_, coherent_new used rules⟩, .nil⟩

theorem describes_made (h : Coherent used s r) (g : Grows s r s' r')
    {made : List (Option (Except (Stop SessionError) TensorId))}
    {made' : List (Option (Except (Stop SessionError) Meaning))}
    (hmade : List.Forall₂ (Option.Rel (Alike (Describes rule s))) made made') :
    List.Forall₂ (Option.Rel (Alike (Describes rule s'))) made made' := by
  refine hmade.imp fun a b hab => ?_
  rcases hab with ⟨hx | e⟩ | _
  · exact .some (.ok (hx.grow h g))
  · exact .some (.error e)
  · exact .none

/-- One command keeps a run sound. -/
theorem Sound.command {rules : FusionRules} {run : Run σ}
    {made : List (Option (Except (Stop SessionError) Meaning))}
    (h : Sound used rule rules run made)
    (hzero : rules.pushPads = true → ∀ op, used op → op.SendsZeros) (materialize : Materializer σ)
    {command : Command} (hused : ∀ op ∈ operations [command], used op) :
    Sound used rule rules (run.command materialize command)
      (made ++ [command.meaning rule made]) := by
  obtain ⟨rfl, ⟨r, hr⟩, hmade⟩ := h
  have realized : ∀ x, Sound used rule run.session.rules
      ⟨(run.session.realize materialize run.device x).2.1,
        (run.session.realize materialize run.device x).2.2, run.made ++ [none]⟩
      (made ++ [none]) := by
    intro x
    obtain ⟨realized, e⟩ := realize_eq_withRealized materialize run.session run.device x
    rw [e]
    exact ⟨rfl, ⟨r, hr.withRealized realized⟩, List.rel_append
      (describes_made hr (grows_withRealized realized) hmade) (.cons .none .nil)⟩
  cases command with
  | construct c =>
    have hc := Construct.rel_lookup (rel_result? hmade) c
    simp only [Command.meaning]
    generalize c.lookup (result? made) = found at hc ⊢
    cases hl : c.lookup (result? run.made) with
    | none =>
      rw [hl] at hc
      cases hc
      rw [command_construct_missing hl]
      exact ⟨rfl, ⟨r, hr⟩, List.rel_append hmade (.cons .none .nil)⟩
    | some c₁ =>
      rw [hl] at hc
      rcases hc with ⟨hc⟩
      have hop : ∀ op xs, c₁ = .elementwise op xs → used op := by
        rintro op xs rfl
        obtain ⟨operands, rfl⟩ := Construct.of_lookup_elementwise hl
        exact hused op (by simp [operations])
      obtain ⟨s', r', rfl, advances, halike⟩ := hr.exec_meaning hzero hc hop
      rw [command_construct hl]
      exact ⟨advances.grows.rules, ⟨r', advances.coherent⟩,
        List.rel_append (describes_made hr advances.grows hmade) (.cons (.some halike) .nil)⟩
  | realize operand =>
    cases hi : result? run.made operand with
    | none =>
      rw [command_realize_missing hi]
      exact ⟨rfl, ⟨r, hr⟩, List.rel_append hmade (.cons .none .nil)⟩
    | some x => exact command_realize hi ▸ realized x
  | realizeTensor x => exact realized x

/-- Carrying out a program keeps a run sound. -/
theorem Sound.commands {rules : FusionRules} {run : Run σ}
    {made : List (Option (Except (Stop SessionError) Meaning))}
    (h : Sound used rule rules run made)
    (hzero : rules.pushPads = true → ∀ op, used op → op.SendsZeros) (materialize : Materializer σ)
    {commands : List Command} (hused : ∀ op ∈ operations commands, used op) :
    Sound used rule rules (run.commands materialize commands) (meanings rule made commands) := by
  induction commands generalizing run made with
  | nil => exact h
  | cons command commands ih =>
    rw [operations_cons] at hused
    exact ih (h.command hzero materialize fun op hop => hused op (List.mem_append_left _ hop))
      fun op hop => hused op (List.mem_append_right _ hop)

/-- A session makes what its program means, under all rules of fusion and whatever is realized on
the way. -/
theorem commands_describe (rule : ConvolutionRule) (rules : FusionRules)
    (materialize : Materializer σ) (device : σ) (commands : List Command)
    (hzero : rules.pushPads = true → ∀ op ∈ operations commands, op.SendsZeros) :
    let run := (start rules device).commands materialize commands
    List.Forall₂ (Option.Rel (Alike (Describes rule run.session))) run.made
      (meanings rule [] commands) :=
  ((sound_start (· ∈ operations commands) rule rules device).commands hzero materialize
    fun _ hop => hop).made

end Run

/-! ## Two runs -/

/-- Two tensors of two sessions have the same shape and the same value. -/
def SameTensor (rule : ConvolutionRule) (s s' : Session) (x y : TensorId) : Prop :=
  ∃ shape, s.shape? x = some shape ∧ s'.shape? y = some shape ∧ s.value rule x = s'.value rule y

theorem alike_described {x y : Option (Except ε TensorId)} {z : Option (Except ε Meaning)}
    (hx : Option.Rel (Alike (Describes rule s)) x z)
    (hy : Option.Rel (Alike (Describes rule s')) y z) :
    Option.Rel (Alike (SameTensor rule s s')) x y := by
  rcases hx with ⟨hx | e⟩ | _
  · rcases hy with ⟨hy | _⟩
    exact .some (.ok ⟨_, hx.1, hy.1, hx.2.trans hy.2.symm⟩)
  · rcases hy with ⟨_ | _⟩
    exact .some (.error e)
  · cases hy
    exact .none

/-- The rules of fusion change neither which commands of a program are refused, nor the shape or the
value of any tensor that it makes, whatever is realized on the way. Where paddings are pushed, this
asks of the pointwise operations of the program that they send zeros to zero. -/
theorem fused_agrees_unfused {σ τ : Type} (rule : ConvolutionRule) (rules : FusionRules)
    (commands : List Command)
    (hzero : rules.pushPads = true → ∀ op ∈ operations commands, op.SendsZeros)
    (materialize : Materializer σ) (device : σ) (materialize' : Materializer τ) (device' : τ) :
    let fused := (Run.start rules device).commands materialize commands
    let unfused := (Run.start .unfused device').commands materialize' commands
    List.Forall₂ (Option.Rel (Alike (SameTensor rule fused.session unfused.session)))
      fused.made unfused.made := by
  intro fused unfused
  have hfused := Run.commands_describe rule rules materialize device commands hzero
  have hunfused := Run.commands_describe rule .unfused materialize' device' commands
    fun h => by cases h
  refine List.forall₂_iff_get.mpr ⟨hfused.length_eq.trans hunfused.length_eq.symm, ?_⟩
  intro i hi hi'
  have hi'' : i < (meanings rule [] commands).length := hfused.length_eq ▸ hi
  exact alike_described ((List.forall₂_iff_get.mp hfused).2 i hi hi'')
    ((List.forall₂_iff_get.mp hunfused).2 i hi' hi'')

/-- A padding of a rectified tensor, realized before it is multiplied by itself. -/
def padded : List Command :=
  [.construct (.host [2] #[1, 2]), .construct (.elementwise (.unary .relu) [0]),
    .construct (.movement (.pad [(1, 1)]) 1), .realize 2,
    .construct (.elementwise (.binary .mul) [2, 2])]

/-- Where all rules of fusion apply, the padding is pushed onto the host data. -/
theorem fused_agrees_unfused_padded :
    (∀ op ∈ operations padded, op.SendsZeros) ∧
    (meanings (fun _ _ _ _ => 0) [] padded).map (Option.map (Except.map Prod.fst)) =
      [some (.ok [2]), some (.ok [2]), some (.ok [4]), none, some (.ok [4])] ∧
    let fused := (Run.start ⟨true, true, true, true, true⟩ #[]).commands (recording none) padded
    let unfused := (Run.start .unfused #[]).commands (recording none) padded
    List.Forall₂
      (Option.Rel (Alike (SameTensor (fun _ _ _ _ => 0) fused.session unfused.session)))
      fused.made unfused.made := by
  have hzero : ∀ op ∈ operations padded, op.SendsZeros := by
    have hops : operations padded = [.unary .relu, .binary .mul] := rfl
    rw [hops, List.forall_mem_cons, List.forall_mem_singleton]
    exact ⟨(by decide : larger 0 0 = 0), (by decide : (0 : Float32) * 0 = 0)⟩
  exact ⟨hzero, rfl, fused_agrees_unfused _ _ padded (fun _ => hzero) _ _ _ _⟩

end TensorLoom.Session
