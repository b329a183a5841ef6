import TensorLoom.Proofs.Session.Construction
import TensorLoom.Proofs.Session.Realization

/-!
# Programs

A program makes tensors and realizes some of them, in any order (`Session.Command`). Its operands
are the results of earlier commands. `Session.Coherent.exec_construct` collects the steps that make
tensors: the shapes of the operands alone decide whether a step is refused and which shape its
tensor has, and the tensor is one that can be made that way (`Session.MadeBy`). So a session is
coherent at every point of a program (`Session.Run.Steps.consistent`).
-/

namespace TensorLoom

variable {α β ε : Type}

/-! ## Results so far -/

/-- The result of an earlier command, if it has one. -/
def result? (made : List (Option (Except ε α))) (i : Nat) : Option α :=
  match made[i]? with
  | some (some (.ok a)) => some a
  | _ => none

theorem rel_result? {R : α → β → Prop} {made : List (Option (Except ε α))}
    {made' : List (Option (Except ε β))} (h : List.Forall₂ (Option.Rel (Alike R)) made made')
    (i : Nat) : Option.Rel R (result? made i) (result? made' i) := by
  induction h generalizing i with
  | nil => exact .none
  | cons hab _ ih =>
    cases i with
    | succ i => exact ih i
    | zero =>
      rcases hab with ⟨⟨h⟩ | _⟩ | _
      · exact .some h
      · exact .none
      · exact .none

/-- A result is an earlier one or that of the last command. -/
theorem result?_append {made : List (Option (Except ε α))} {outcome : Option (Except ε α)} {i : Nat}
    {x : α} (h : result? (made ++ [outcome]) i = some x) :
    result? made i = some x ∨ outcome = some (.ok x) := by
  have hcase : (made ++ [outcome])[i]? = made[i]? ∨ (made ++ [outcome])[i]? = some outcome ∨
      (made ++ [outcome])[i]? = none := by
    rcases Nat.lt_trichotomy i made.length with hi | rfl | hi
    · exact .inl (List.getElem?_append_left hi)
    · exact .inr (.inl List.getElem?_concat_length)
    · exact .inr (.inr (List.getElem?_eq_none (by rw [List.length_append]; exact hi)))
  unfold result? at h ⊢
  rcases hcase with e | e | e <;> rw [e] at h
  · exact .inl h
  · right
    split at h
    · rename_i e
      rw [Option.some.inj e, Option.some.inj h]
    · cases h
  · cases h

section Related

variable {γ δ : Type} {R : α → β → Prop} {S : γ → δ → Prop}

theorem rel_bind {x : Option α} {y : Option β} {f : α → Option γ} {g : β → Option δ}
    (h : Option.Rel R x y) (hf : ∀ a b, R a b → Option.Rel S (f a) (g b)) :
    Option.Rel S (x.bind f) (y.bind g) := by
  cases h with
  | some hab => exact hf _ _ hab
  | none => exact .none

theorem rel_map {x : Option α} {y : Option β} {f : α → γ} {g : β → δ} (h : Option.Rel R x y)
    (hf : ∀ a b, R a b → S (f a) (g b)) : Option.Rel S (x.map f) (y.map g) := by
  cases h with
  | some hab => exact .some (hf _ _ hab)
  | none => exact .none

theorem rel_mapM {f : α → Option γ} {g : β → Option δ}
    (h : ∀ a b, R a b → Option.Rel S (f a) (g b)) {xs : List α} {ys : List β}
    (hxs : List.Forall₂ R xs ys) : Option.Rel (List.Forall₂ S) (xs.mapM f) (ys.mapM g) := by
  induction hxs with
  | nil => exact .some .nil
  | cons hab _ ih =>
    rw [List.mapM_cons, List.mapM_cons]
    exact rel_bind (h _ _ hab) fun _ _ hcd => rel_bind ih fun _ _ hrest => .some (.cons hcd hrest)

end Related

namespace Session

/-! ## Commands -/

/-- Making one tensor, of operands of any kind. -/
inductive Construct (α : Type) where
  | host (shape : List Nat) (data : Array Float32)
  | elementwise (op : Op) (operands : List α)
  | movement (m : Movement) (operand : α)
  | reduce (op : Reduction) (operand : α) (shape : List Nat)
  | convolve (operand weights : α) (args : Convolution)

/-- A command of a program: make a tensor, or realize one. -/
inductive Command where
  | construct (c : Construct Nat)
  /-- Realize the result of an earlier command. -/
  | realize (operand : Nat)
  /-- Realize a tensor by its number, which may be one that was made on the way. -/
  | realizeTensor (x : TensorId)

/-- The pointwise operations of a program. -/
def operations (commands : List Command) : List Op :=
  commands.filterMap fun
    | .construct (.elementwise op _) => some op
    | _ => none

theorem operations_cons (command : Command) (commands : List Command) :
    operations (command :: commands) = operations [command] ++ operations commands := by
  rw [operations, ← List.singleton_append, List.filterMap_append]
  rfl

namespace Construct

/-- The same with the operands looked up, if all of them are found. -/
def lookup (f : α → Option β) : Construct α → Option (Construct β)
  | host shape data => some (host shape data)
  | elementwise op operands => (operands.mapM f).map (elementwise op)
  | movement m x => (f x).map (movement m)
  | reduce op x shape => (f x).map (reduce op · shape)
  | convolve x w args => (f x).bind fun x => (f w).map (convolve x · args)

/-- The same with other operands. -/
def map (f : α → β) : Construct α → Construct β
  | host shape data => host shape data
  | elementwise op operands => elementwise op (operands.map f)
  | movement m x => movement m (f x)
  | reduce op x shape => reduce op (f x) shape
  | convolve x w args => convolve (f x) (f w) args

/-- The shape of the tensor, given those of the operands, or why it is not made. -/
def shape : Construct (List Nat) → Except (Stop SessionError) (List Nat)
  | host shape data => (hostSize shape data).map fun _ => shape
  | elementwise op shapes => (elementwiseShape op shapes).mapError .refused
  | movement m shape => ((m.outcome shape).mapError (Stop.mapRefusal .layout)).map fun (t, same) =>
    if same then shape else t.shape
  | reduce _ shape target =>
    if Reduces shape target then .ok target
    else .error (.refused (.layout (.reduceShapeMismatch shape target)))
  | convolve _ _ args =>
    ((View.checkShape args.outShape).mapError (Stop.mapRefusal .layout)).map fun _ => args.outShape

/-- The step that makes the tensor. -/
def step : Construct TensorId → SessionM TensorId
  | host shape data => Session.host shape data
  | elementwise op operands => Session.elementwise op operands
  | movement m x => Session.movement m x
  | reduce op x shape => Session.reduce op x shape
  | convolve x w args => Session.convolve x w args

/-- The same with related operands. -/
inductive Rel (R : α → β → Prop) : Construct α → Construct β → Prop
  | host (shape : List Nat) (data : Array Float32) : Rel R (host shape data) (host shape data)
  | elementwise (op : Op) {xs : List α} {ys : List β} :
      List.Forall₂ R xs ys → Rel R (elementwise op xs) (elementwise op ys)
  | movement (m : Movement) {x : α} {y : β} : R x y → Rel R (movement m x) (movement m y)
  | reduce (op : Reduction) {x : α} {y : β} (shape : List Nat) :
      R x y → Rel R (reduce op x shape) (reduce op y shape)
  | convolve {x w : α} {y v : β} (args : Convolution) :
      R x y → R w v → Rel R (convolve x w args) (convolve y v args)

theorem Rel.map_right {γ : Type} {R : α → γ → Prop} {f : β → γ} {c : Construct α}
    {c' : Construct β} (h : Rel (fun a b => R a (f b)) c c') : Rel R c (c'.map f) := by
  cases h with
  | host shape data => exact .host shape data
  | elementwise op hxs => exact .elementwise op (List.forall₂_map_right_iff.mpr hxs)
  | movement m hx => exact .movement m hx
  | reduce op target hx => exact .reduce op target hx
  | convolve args hx hw => exact .convolve args hx hw

theorem Rel.imp {R S : α → β → Prop} (hRS : ∀ a b, R a b → S a b) {c : Construct α}
    {c' : Construct β} (h : Rel R c c') : Rel S c c' := by
  cases h with
  | host shape data => exact .host shape data
  | elementwise op hxs => exact .elementwise op (hxs.imp hRS)
  | movement m hx => exact .movement m (hRS _ _ hx)
  | reduce op target hx => exact .reduce op target (hRS _ _ hx)
  | convolve args hx hw => exact .convolve args (hRS _ _ hx) (hRS _ _ hw)

theorem rel_lookup {γ : Type} {R : β → γ → Prop} {f : α → Option β} {g : α → Option γ}
    (h : ∀ a, Option.Rel R (f a) (g a)) (c : Construct α) :
    Option.Rel (Rel R) (c.lookup f) (c.lookup g) := by
  cases c with
  | host shape data => exact .some (.host shape data)
  | elementwise op xs =>
    have hxs : Option.Rel (List.Forall₂ R) (xs.mapM f) (xs.mapM g) :=
      rel_mapM (fun a b (e : a = b) => e ▸ h a) (List.forall₂_refl xs)
    exact rel_map hxs fun _ _ => .elementwise op
  | movement m x => exact rel_map (h x) fun _ _ => .movement m
  | reduce op x shape => exact rel_map (h x) fun _ _ => .reduce op shape
  | convolve x w args =>
    exact rel_bind (h x) fun _ _ hx => rel_map (h w) fun _ _ hw => .convolve args hx hw

theorem of_lookup_elementwise {f : α → Option β} {c : Construct α} {op : Op} {ys : List β}
    (h : c.lookup f = some (.elementwise op ys)) : ∃ xs, c = .elementwise op xs := by
  cases c with
  | elementwise op' xs =>
    obtain ⟨_, -, e⟩ := Option.map_eq_some_iff.mp h
    cases e
    exact ⟨xs, rfl⟩
  | host shape data => cases h
  | movement m x =>
    obtain ⟨_, -, e⟩ := Option.map_eq_some_iff.mp h
    cases e
  | reduce op' x shape =>
    obtain ⟨_, -, e⟩ := Option.map_eq_some_iff.mp h
    cases e
  | convolve x w args =>
    obtain ⟨_, -, h⟩ := Option.bind_eq_some_iff.mp h
    obtain ⟨_, -, e⟩ := Option.map_eq_some_iff.mp h
    cases e

end Construct

/-! ## Tensors made of operands -/

variable {used : Op → Prop} {s s' : Session} {r r' : OpTree.Register TensorId}

/-- A tensor is one that can be made in a certain way. -/
inductive MadeBy (used : Op → Prop) (s : Session) (y : TensorId) : Construct TensorId → Prop
  | host {shape : List Nat} {data : Array Float32} :
      s.tensors[y]? = some ⟨shape, .host data⟩ → MadeBy used s y (.host shape data)
  | elementwise {op : Op} {xs : List TensorId} :
      PointwiseOf used s op xs y → MadeBy used s y (.elementwise op xs)
  | movement {m : Movement} {x : TensorId} :
      MovementOf s m x y → MadeBy used s y (.movement m x)
  | reduce {id : Nat} {op : Reduction} {x : TensorId} {shape : List Nat} :
      s.tensors[y]? = some
        ⟨shape, .deferred .reduction (.node id (.reduce op shape) [.leaf x])⟩ →
          MadeBy used s y (.reduce op x shape)
  | convolve {id : Nat} {x w : TensorId} {args : Convolution} :
      s.tensors[y]? = some
        ⟨args.outShape, .deferred .processing (.node id (.convolution args) [.leaf x, .leaf w])⟩ →
          MadeBy used s y (.convolve x w args)

/-- A step makes a tensor of the right shape, or is refused for the right reason. -/
theorem Coherent.exec_construct (h : Coherent used s r) {c : Construct TensorId}
    {c' : Construct (List Nat)} (hc : Construct.Rel (fun x d => s.shape? x = some d) c c')
    (hused : ∀ op xs, c = .elementwise op xs → used op) :
    (∃ e, c'.shape = .error e ∧ exec c.step s = (.error e, s)) ∨
      ∃ y shape s' r', c'.shape = .ok shape ∧ exec c.step s = (.ok y, s') ∧
        Advances used s r s' r' ∧ s'.shape? y = some shape ∧ MadeBy used s' y c := by
  cases hc with
  | host shape data =>
    simp only [Construct.shape, Construct.step]
    cases ho : hostSize shape data with
    | error e => exact .inl ⟨e, rfl, by rw [exec_host_eq, ho]⟩
    | ok u =>
      obtain ⟨s', hrun, advances, hy⟩ := h.exec_host ho
      exact .inr ⟨_, shape, s', r, rfl, hrun, advances, shape?_of_tensor hy, .host hy⟩
  | @elementwise op xs shapes hxs =>
    simp only [Construct.shape, Construct.step]
    cases ho : elementwiseShape op shapes with
    | error e => exact .inl ⟨_, rfl, exec_elementwise_error hxs ho⟩
    | ok shape =>
      obtain ⟨y, s', r', hrun, advances, of⟩ := h.exec_elementwise (hused op xs rfl) hxs ho
      refine .inr ⟨y, shape, s', r', rfl, hrun, advances, of.shape_eq fun x hx => ?_,
        .elementwise of⟩
      obtain ⟨d, hd, hxd⟩ := exists_of_forall₂_right hxs.flip hx
      exact (of_elementwiseShape ho).2 d hd ▸ advances.grows.shape? hxd
  | @movement m x shape hx =>
    simp only [Construct.shape, Construct.step]
    cases ho : m.outcome shape with
    | error e => exact .inl ⟨_, rfl, h.exec_movement_error hx ho⟩
    | ok outcome =>
      obtain ⟨t, same⟩ := outcome
      obtain ⟨y, s', r', hrun, moved⟩ := h.exec_movement hx ho
      have of := moved.coherent.known_movement _ _ _ moved.known
      have hshape := moved.grows.shape? hx
      refine .inr ⟨y, _, s', r', rfl, hrun, moved.toAdvances, ?_, .movement of⟩
      cases same with
      | true => rwa [of.eq_of_same hshape ho]
      | false => exact of.shape_eq hshape ho
  | @reduce op x shape target hx =>
    by_cases hr : Reduces shape target
    · obtain ⟨id, y, s', r', hrun, advances, hy⟩ := h.exec_reduce op hx hr
      exact .inr ⟨y, target, s', r', if_pos hr, hrun, advances, shape?_of_tensor hy, .reduce hy⟩
    · exact .inl ⟨_, if_neg hr, exec_reduce_error hx hr⟩
  | @convolve x w d d' args hx hw =>
    simp only [Construct.shape, Construct.step]
    cases ho : View.checkShape args.outShape with
    | error e => exact .inl ⟨_, rfl, exec_convolve_error ho⟩
    | ok u =>
      obtain ⟨id, y, s', r', hrun, advances, hy⟩ :=
        h.exec_convolve (lt_of_shape? hx) (lt_of_shape? hw) ho
      exact .inr ⟨y, _, s', r', rfl, hrun, advances, shape?_of_tensor hy, .convolve hy⟩

/-! ## Runs -/

/-- A program that is carried out: the session, the device that tensors are realized on, and what
has become of each command so far. -/
structure Run (σ : Type) where
  session : Session
  device : σ
  made : List (Option (Except (Stop SessionError) TensorId))

namespace Run

variable {σ : Type}

/-- A run before its first command. -/
def start (rules : FusionRules) (device : σ) : Run σ := ⟨.new rules, device, []⟩

/-- Carry out one command. Nothing is done if an operand is missing. -/
def command (materialize : Materializer σ) (run : Run σ) : Command → Run σ
  | .construct c =>
    match c.lookup (result? run.made) with
    | some c =>
      let (outcome, session) := exec c.step run.session
      ⟨session, run.device, run.made ++ [some outcome]⟩
    | none => ⟨run.session, run.device, run.made ++ [none]⟩
  | .realize operand =>
    match result? run.made operand with
    | some x =>
      let (_, session, device) := run.session.realize materialize run.device x
      ⟨session, device, run.made ++ [none]⟩
    | none => ⟨run.session, run.device, run.made ++ [none]⟩
  | .realizeTensor x =>
    let (_, session, device) := run.session.realize materialize run.device x
    ⟨session, device, run.made ++ [none]⟩

/-- Carry out a program. -/
def commands (materialize : Materializer σ) (run : Run σ) (commands : List Command) : Run σ :=
  commands.foldl (command materialize) run

/-- The session of a run is coherent, and the results so far are tensors of it. -/
structure Consistent (used : Op → Prop) (run : Run σ) (r : OpTree.Register TensorId) : Prop where
  coherent : Coherent used run.session r
  made : ∀ i x, result? run.made i = some x → x < run.session.tensors.size

theorem consistent_start (used : Op → Prop) (rules : FusionRules) (device : σ) :
    Consistent used (start rules device) fun _ => none where
  coherent := coherent_new used rules
  made i x h := by simp [start, result?] at h

/-- What one command can do: nothing, or nothing but being refused, or make a tensor, or realize
one. -/
inductive Steps (used : Op → Prop) (materialize : Materializer σ) (run : Run σ)
    (r : OpTree.Register TensorId) : Run σ → OpTree.Register TensorId → Prop
  | idle {outcome : Option (Except (Stop SessionError) TensorId)} :
      (∀ y, outcome ≠ some (.ok y)) →
        Steps used materialize run r ⟨run.session, run.device, run.made ++ [outcome]⟩ r
  | makes {y : TensorId} {s' : Session} {r' : OpTree.Register TensorId} :
      Advances used run.session r s' r' → y < s'.tensors.size →
        Steps used materialize run r ⟨s', run.device, run.made ++ [some (.ok y)]⟩ r'
  | realizes (x : TensorId) : Steps used materialize run r
      ⟨(run.session.realize materialize run.device x).2.1,
        (run.session.realize materialize run.device x).2.2, run.made ++ [none]⟩ r

variable {materialize : Materializer σ} {run run' : Run σ}

theorem command_construct {c : Construct Nat} {c₁ : Construct TensorId}
    (hc : c.lookup (result? run.made) = some c₁) : run.command materialize (.construct c) =
      ⟨(exec c₁.step run.session).2, run.device,
        run.made ++ [some (exec c₁.step run.session).1]⟩ := by
  simp only [command, hc]

theorem command_construct_missing {c : Construct Nat} (hc : c.lookup (result? run.made) = none) :
    run.command materialize (.construct c) =
      ⟨run.session, run.device, run.made ++ [none]⟩ := by
  simp only [command, hc]

theorem command_realize {i : Nat} {x : TensorId} (hi : result? run.made i = some x) :
    run.command materialize (.realize i) =
      ⟨(run.session.realize materialize run.device x).2.1,
        (run.session.realize materialize run.device x).2.2, run.made ++ [none]⟩ := by
  simp only [command, hi]

theorem command_realize_missing {i : Nat} (hi : result? run.made i = none) :
    run.command materialize (.realize i) = ⟨run.session, run.device, run.made ++ [none]⟩ := by
  simp only [command, hi]

/-- The operands of a command are tensors of the session. -/
theorem Consistent.exists_shapes (h : Consistent used run r) {c : Construct Nat}
    {c₁ : Construct TensorId} (hc : c.lookup (result? run.made) = some c₁) :
    ∃ c', Construct.Rel (fun x d => run.session.shape? x = some d) c₁ c' := by
  have hrel : ∀ i, Option.Rel (fun x d => run.session.shape? x = some d) (result? run.made i)
      ((result? run.made i).bind run.session.shape?) := by
    intro i
    cases hi : result? run.made i with
    | none => exact .none
    | some x =>
      obtain ⟨t, ht⟩ : ∃ t, run.session.tensors[x]? = some t :=
        ⟨_, Array.getElem?_eq_getElem (h.made i x hi)⟩
      have hx := shape?_of_tensor ht
      rw [Option.bind_some, hx]
      exact .some hx
  have hlookup := Construct.rel_lookup hrel c
  rw [hc] at hlookup
  generalize c.lookup _ = found at hlookup
  rcases hlookup with ⟨hlookup⟩
  exact ⟨_, hlookup⟩

theorem Consistent.steps (h : Consistent used run r) (materialize : Materializer σ)
    (command : Command) (hused : ∀ op ∈ operations [command], used op) :
    ∃ r', Steps used materialize run r (run.command materialize command) r' := by
  cases command with
  | construct c =>
    cases hc : c.lookup (result? run.made) with
    | none => exact ⟨r, command_construct_missing hc ▸ .idle nofun⟩
    | some c₁ =>
      obtain ⟨c', hc'⟩ := h.exists_shapes hc
      have hop : ∀ op xs, c₁ = .elementwise op xs → used op := by
        rintro op xs rfl
        obtain ⟨operands, rfl⟩ := Construct.of_lookup_elementwise hc
        exact hused op (by simp [operations])
      rw [command_construct hc]
      rcases h.coherent.exec_construct hc' hop with
        ⟨e, -, hrun⟩ | ⟨y, shape, s', r', -, hrun, advances, hy, -⟩
      · rw [hrun]
        exact ⟨r, .idle nofun⟩
      · rw [hrun]
        exact ⟨r', .makes advances (lt_of_shape? hy)⟩
  | realize i =>
    cases hi : result? run.made i with
    | none => exact ⟨r, command_realize_missing hi ▸ .idle nofun⟩
    | some x => exact ⟨r, command_realize hi ▸ .realizes x⟩
  | realizeTensor x => exact ⟨r, .realizes x⟩

theorem Steps.consistent (hs : Steps used materialize run r run' r') (h : Consistent used run r) :
    Consistent used run' r' := by
  cases hs with
  | idle hne =>
    refine ⟨h.coherent, fun i x hx => ?_⟩
    rcases result?_append hx with hx | e
    · exact h.made i x hx
    · exact absurd e (hne x)
  | makes advances hy =>
    refine ⟨advances.coherent, fun i x hx => ?_⟩
    rcases result?_append hx with hx | e
    · exact advances.grows.lt_size (h.made i x hx)
    · cases e
      exact hy
  | realizes y =>
    obtain ⟨realized, e⟩ := realize_eq_withRealized materialize run.session run.device y
    rw [e]
    refine ⟨h.coherent.withRealized realized, fun i x hx => ?_⟩
    rcases result?_append hx with hx | e
    · exact h.made i x hx
    · cases e

end Run

end Session

end TensorLoom
