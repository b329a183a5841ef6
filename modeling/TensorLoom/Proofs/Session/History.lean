import TensorLoom.Proofs.Session.Program

/-!
# What is realized in a program

A program may realize tensors at any point, and the materializer may fail at any request. The log of
all requests (`Materializer.logged`) tells which tensors have been computed over the whole run:
exactly those that are realized, each once, and never host data (`Session.Run.Recorded`).

`Session.Run.realize_exactly_once` says what each realization does after any program: it asks for
tensors whose leaves are there already; if it succeeds it has computed what the target needs and had
not been computed before, and nothing else; and if it fails, what it has computed stays realized, so
that the same call asks for the rest only.
-/

namespace TensorLoom.Session

open OpTree (Subtree Register)

variable {used : Op → Prop} {s s' : Session} {r r' : Register TensorId}

/-- A tensor whose elements are still to be computed or have been. -/
def IsDeferred (s : Session) (x : TensorId) : Prop :=
  ∃ shape category tree, s.tensors[x]? = some ⟨shape, .deferred category tree⟩

/-- A tensor whose elements were given by the host. -/
def IsHost (s : Session) (x : TensorId) : Prop :=
  ∃ shape data, s.tensors[x]? = some ⟨shape, .host data⟩

theorem isHost_or_isDeferred {x : TensorId} (hx : x < s.tensors.size) :
    s.IsHost x ∨ s.IsDeferred x := by
  obtain ⟨⟨shape, content⟩, ht⟩ : ∃ t, s.tensors[x]? = some t := ⟨_, Array.getElem?_eq_getElem hx⟩
  cases content with
  | host data => exact .inl ⟨shape, data, ht⟩
  | deferred category tree => exact .inr ⟨shape, category, tree, ht⟩

theorem isPending_iff_isDeferred {x : TensorId} :
    s.isPending x = true ↔ s.IsDeferred x ∧ s.isRealized x ≠ true := by
  rw [isPending_iff]
  refine and_congr_left' ?_
  unfold IsDeferred
  cases s.tensors[x]? with
  | none => simp
  | some t =>
    obtain ⟨shape, content⟩ := t
    cases content with
    | host data => simp [Tensor.category]
    | deferred category tree => simp [Tensor.category]

/-- A request tells of a tensor and its tree. -/
theorem of_request?_tree {x : TensorId} {request : Request} (h : s.request? x = some request) :
    ∃ shape category tree, s.tensors[x]? = some ⟨shape, .deferred category tree⟩ ∧
      request = ⟨x, category, tree.ops, tree.leaves.eraseDups⟩ := by
  unfold request? at h
  split at h
  · rename_i shape category tree ht
    split at h
    · cases h
    · cases h
      exact ⟨shape, category, tree, ht, rfl⟩
  · cases h

theorem Needs.refl (s : Session) (x : TensorId) : s.Needs x x := Relation.ReflTransGen.refl

/-- Host data has no leaves. -/
theorem not_subtree_host {shape : List Nat} {data : Array Float32} {z : TensorId} :
    ¬ Subtree (.leaf z) (⟨shape, .host data⟩ : Tensor).tree := by
  intro h
  rcases OpTree.subtree_node.mp h with e | ⟨t, ht, -⟩
  · cases e
  · cases ht

/-- The sources of a tensor are the leaves of its tree. -/
theorem Coherent.mem_sources (h : Coherent used s r) {x z : TensorId} :
    z ∈ s.sources x ↔ ∃ t, s.tensors[x]? = some t ∧ Subtree (.leaf z) t.tree := by
  unfold sources
  cases ht : s.tensors[x]? with
  | none => simp
  | some t =>
    simp only [Option.some.injEq, exists_eq_left', Tensor.sources, List.mem_eraseDups]
    refine ⟨OpTree.subtree_of_mem_leaves, fun hz => ?_⟩
    obtain ⟨shape, content⟩ := t
    cases content with
    | host data => exact absurd hz not_subtree_host
    | deferred category tree =>
      exact OpTree.mem_leaves (h.registered x shape category tree ht).wellShared hz

theorem Coherent.older_sources (h : Coherent used s r) (x : TensorId) :
    ∀ z ∈ s.sources x, z < x := by
  intro z hz
  obtain ⟨⟨shape, content⟩, ht, hleaf⟩ := h.mem_sources.mp hz
  cases content with
  | host data => exact absurd hleaf not_subtree_host
  | deferred category tree => exact h.older ht hleaf

/-! ## Sessions between realizations -/

/-- The log of a session: the tensors that it says were computed are those that are realized, each
once, and none of the tensors asked for is host data. -/
structure Recorded (s : Session) (log : List (Request × Bool)) : Prop where
  settled : s.Settled
  realized : ∀ x, s.isRealized x = true ↔ x ∈ computed log
  nodup : (computed log).Nodup
  deferred : ∀ entry ∈ log, s.IsDeferred entry.1.tensor

theorem recorded_new (rules : FusionRules) : Recorded (.new rules) [] where
  settled x hx := by simp [new, isRealized] at hx
  realized x := by simp [new, isRealized, computed]
  nodup := List.nodup_nil
  deferred entry h := by cases h

theorem mem_of_computed {log : List (Request × Bool)} {x : TensorId} (h : x ∈ computed log) :
    ∃ entry ∈ log, entry.1.tensor = x := by
  obtain ⟨entry, hentry, rfl⟩ := List.mem_map.mp h
  exact ⟨entry, (List.mem_filter.mp hentry).1, rfl⟩

theorem IsDeferred.grow {x : TensorId} (hx : s.IsDeferred x) (g : Grows s r s' r') :
    s'.IsDeferred x := by
  obtain ⟨shape, category, tree, ht⟩ := hx
  exact ⟨shape, category, tree, g.tensors x _ ht⟩

/-- Making tensors realizes none. -/
theorem Recorded.advance {log : List (Request × Bool)} (hlog : Recorded s log)
    (h : Coherent used s r) (a : Advances used s r s' r') : Recorded s' log where
  settled x hx z hz := by
    have hx : s.isRealized x = true := by rwa [isRealized, a.realized] at hx
    -- a realized tensor and its sources are old, and so are as they were
    obtain ⟨entry, hentry, rfl⟩ := mem_of_computed ((hlog.realized x).mp hx)
    obtain ⟨shape, category, tree, ht⟩ := hlog.deferred entry hentry
    have hsame : s'.sources entry.1.tensor = s.sources entry.1.tensor := by
      rw [sources, sources, a.grows.tensors _ _ ht, ht]
    rw [hsame] at hz
    have hold := hlog.settled _ hx z hz
    have hlt : z < s.tensors.size :=
      Nat.lt_trans (h.older_sources _ z hz) (lt_of_tensor ht)
    rw [isPending, isRealized, a.realized, a.grows.tensors z _ (Array.getElem?_eq_getElem hlt)]
    rwa [isPending, isRealized, Array.getElem?_eq_getElem hlt] at hold
  realized x := by
    rw [isRealized, a.realized]
    exact hlog.realized x
  nodup := hlog.nodup
  deferred entry hentry := (hlog.deferred entry hentry).grow a.grows

/-- A realization adds to the log what it computes. -/
theorem Recorded.realizes {log log' : List (Request × Bool)} (hlog : Recorded s log)
    (h : Realizes s log' s') : Recorded s' (log ++ log') where
  settled := h.settled_session hlog.settled
  realized x := by
    rw [h.isRealized_iff, hlog.realized, computed_append, List.mem_append]
  nodup := by
    rw [computed_append]
    refine List.nodup_append'.mpr ⟨hlog.nodup, h.computed_pending.1, fun x hx hx' => ?_⟩
    have hp := h.computed_pending.2 x hx'
    exact (isPending_iff_isDeferred.mp hp).2 ((hlog.realized x).mpr hx)
  deferred entry hentry := by
    obtain ⟨realized, rfl⟩ := h.eq_withRealized
    rcases List.mem_append.mp hentry with hentry | hentry
    · exact hlog.deferred entry hentry
    · obtain ⟨before, after, e⟩ := List.append_of_mem hentry
      obtain ⟨⟨s₁, h₁, asked⟩, -⟩ := h.asked e
      obtain ⟨realized₁, rfl⟩ := h₁.eq_withRealized
      exact (isPending_iff_isDeferred.mp (of_request? asked).2).1

/-! ## One realization -/

/-- What a call that realizes `x` asks of the materializer, and what comes of it. -/
structure RealizesOnce (s : Session) (x : TensorId) (log : List (Request × Bool))
    (outcome : Except SessionError Unit) (s' : Session) : Prop where
  /-- Each request is for a tensor and its tree, all leaves of which are host data or have been
  realized, before the call or in it. -/
  ready : ∀ before entry after, log = before ++ entry :: after →
    ∃ shape category tree, s.tensors[entry.1.tensor]? = some ⟨shape, .deferred category tree⟩ ∧
      entry.1 = ⟨entry.1.tensor, category, tree.ops, tree.leaves.eraseDups⟩ ∧
      ∀ z, Subtree (.leaf z) tree →
        s.IsHost z ∨ s.isRealized z = true ∨ z ∈ computed before
  /-- No tensor is computed twice, or again. -/
  once : (computed log).Nodup ∧ ∀ z ∈ computed log, s.isRealized z = false
  /-- The call fails if one of its requests does. -/
  succeeds : outcome.isOk = log.all (·.2)
  /-- A call that succeeds computes what its target needs and had not been computed. -/
  complete : outcome = .ok () →
    (∀ z, z ∈ computed log ↔ s.Needs x z ∧ s.IsDeferred z ∧ s.isRealized z = false) ∧
      ∀ z, s.Needs x z → s.IsDeferred z → s'.isRealized z = true
  /-- Realized is what was before and what the call has computed, whether it succeeds or not. -/
  realized : ∀ z, s'.isRealized z = true ↔ s.isRealized z = true ∨ z ∈ computed log

theorem Recorded.realizesOnce {σ : Type} {log : List (Request × Bool)} (hlog : Recorded s log)
    (h : Coherent used s r) (materialize : Materializer σ) (device : σ) (x : TensorId) :
    let (outcome, s', state') := s.realize materialize.logged (device, log) x
    ∃ log', state'.2 = log ++ log' ∧ RealizesOnce s x log' outcome s' ∧ Recorded s' state'.2 := by
  obtain ⟨log', hlog', run⟩ := runVisits_completes materialize (device, log) {} [.expand x]
    h.older_sources (.start x) (x := x) fun v hv => by
      obtain rfl := List.mem_singleton.mp hv
      exact .refl s x
  unfold realize
  generalize runVisits materialize.logged s (device, log) {} [.expand x] = result at hlog' run ⊢
  obtain ⟨outcome, s', state'⟩ := result
  dsimp only at hlog' run ⊢
  have hpending := run.realizes.computed_pending
  have hrealized : ∀ z, s'.isRealized z = true ↔ _ := fun z => run.realizes.isRealized_iff
  have hall : outcome = .ok () → ∀ z, s.Needs x z → s.IsDeferred z → s'.isRealized z = true := by
    intro hok z hneeds hz
    have hsettled := run.realizes.settled_session hlog.settled
    obtain ⟨realized, rfl⟩ := run.realizes.eq_withRealized
    have hnot := hsettled.of_needs hneeds (run.visited hok _ List.mem_cons_self)
    by_contra hr
    rw [(isPending_iff_isDeferred (s := { s with realized })).mpr ⟨hz, hr⟩] at hnot
    cases hnot
  refine ⟨log', hlog', ⟨?_, ?_, run.succeeds, fun hok => ⟨fun z => ⟨fun hz => ?_, ?_⟩, hall hok⟩,
    hrealized⟩, hlog' ▸ hlog.realizes run.realizes⟩
  · intro before entry after e
    obtain ⟨⟨s₁, h₁, asked⟩, sources⟩ := run.realizes.asked e
    obtain ⟨realized, rfl⟩ := h₁.eq_withRealized
    obtain ⟨shape, category, tree, ht, hrequest⟩ := of_request?_tree asked
    refine ⟨shape, category, tree, ht, hrequest, fun z hz => ?_⟩
    rcases sources z (h.mem_sources.mpr ⟨_, ht, hz⟩) with hp | hc
    · by_cases hr : s.isRealized z = true
      · exact .inr (.inl hr)
      · have hlt : z < s.tensors.size := Nat.lt_trans (h.older ht hz) (lt_of_tensor ht)
        refine .inl ((isHost_or_isDeferred hlt).resolve_right fun hd => ?_)
        rw [isPending_iff_isDeferred.mpr ⟨hd, hr⟩] at hp
        cases hp
    · exact .inr (.inr hc)
  · exact ⟨hpending.1, fun z hz => by
      simpa using (isPending_iff_isDeferred.mp (hpending.2 z hz)).2⟩
  · obtain ⟨entry, hentry, rfl⟩ := mem_of_computed hz
    obtain ⟨hdeferred, hnot⟩ := isPending_iff_isDeferred.mp (hpending.2 _ hz)
    exact ⟨run.needed entry hentry, hdeferred, by simpa using hnot⟩
  · rintro ⟨hneeds, hdeferred, hnot⟩
    refine ((hrealized z).mp (hall hok z hneeds hdeferred)).resolve_left fun hr => ?_
    rw [hnot] at hr
    cases hr

/-! ## Runs -/

namespace Run

variable {σ : Type}

/-- Keeping a log changes nothing of a run. -/
theorem commands_logged (materialize : Materializer σ) (run : Run (σ × List (Request × Bool)))
    (commands : List Command) :
    let logged := run.commands materialize.logged commands
    (⟨run.session, run.device.1, run.made⟩ : Run σ).commands materialize commands =
      ⟨logged.session, logged.device.1, logged.made⟩ := by
  induction commands generalizing run with
  | nil => rfl
  | cons command commands ih =>
    have hstep : (⟨run.session, run.device.1, run.made⟩ : Run σ).command materialize command =
        ⟨(run.command materialize.logged command).session,
          (run.command materialize.logged command).device.1,
          (run.command materialize.logged command).made⟩ := by
      cases command with
      | construct c =>
        simp only [Run.command]
        split <;> rfl
      | realize i =>
        simp only [Run.command]
        split
        · rw [realize, runVisits_logged]
          rfl
        · rfl
      | realizeTensor x =>
        simp only [Run.command]
        rw [realize, runVisits_logged]
        rfl
    have hrest := ih (run.command materialize.logged command)
    rw [← hstep] at hrest
    exact hrest

/-- One command keeps the log right. -/
theorem Steps.recorded {materialize : Materializer σ} {run run' : Run (σ × List (Request × Bool))}
    (hs : Steps used materialize.logged run r run' r') (h : Coherent used run.session r)
    (hlog : Recorded run.session run.device.2) : Recorded run'.session run'.device.2 := by
  cases hs with
  | idle _ => exact hlog
  | makes advances _ => exact hlog.advance h advances
  | realizes x =>
    obtain ⟨_, -, -, hlog'⟩ := hlog.realizesOnce h materialize run.device.1 x
    exact hlog'

/-- Every session of a run is coherent, and its log is right. -/
theorem recorded_commands (rules : FusionRules) (materialize : Materializer σ) (device : σ)
    (commands : List Command) :
    let run := (start rules (device, [])).commands materialize.logged commands
    (∃ r, Consistent (fun _ => True) run r) ∧ Recorded run.session run.device.2 := by
  suffices ∀ run : Run (σ × List (Request × Bool)), ∀ r, Consistent (fun _ => True) run r →
      Recorded run.session run.device.2 →
        (∃ r, Consistent (fun _ => True) (run.commands materialize.logged commands) r) ∧
          Recorded (run.commands materialize.logged commands).session
            (run.commands materialize.logged commands).device.2 from
    this _ _ (consistent_start _ rules _) (recorded_new rules)
  induction commands with
  | nil => exact fun run r h hlog => ⟨⟨r, h⟩, hlog⟩
  | cons command commands ih =>
    intro run r h hlog
    obtain ⟨r', hs⟩ := h.steps materialize.logged command fun _ _ => trivial
    exact ih _ r' (hs.consistent h) (hs.recorded h.coherent hlog)

/-- Over a whole program, in which tensors are realized at any points and the materializer may fail
at any request, the tensors computed are those that are realized at the end, each computed once, and
no request is for host data. To realize a tensor after it is then to ask in the right order, to
compute what the tensor needs and nothing that has been computed, and to fail only with the
materializer. -/
theorem realize_exactly_once (rules : FusionRules) (materialize : Materializer σ) (device : σ)
    (commands : List Command) :
    let run := (start rules (device, [])).commands materialize.logged commands
    Recorded run.session run.device.2 ∧
      ∀ x, let (outcome, s', state') := run.session.realize materialize.logged run.device x
        ∃ log, state'.2 = run.device.2 ++ log ∧ RealizesOnce run.session x log outcome s' := by
  intro run
  obtain ⟨⟨r, h⟩, hlog⟩ := recorded_commands rules materialize device commands
  refine ⟨hlog, fun x => ?_⟩
  obtain ⟨log, hstate, once, -⟩ := hlog.realizesOnce h.coherent materialize run.device.1 x
  exact ⟨log, hstate, once⟩

/-- The device is lost after one request; asked again, it is lost before the next. -/
example : computed ((start .unfused (#[], [])).commands (recording (some 1)).logged
    [.construct (.host [2] #[1, 2]), .construct (.elementwise (.unary .relu) [0]),
      .construct (.reduce .sum 1 [1]), .realize 2, .realize 2]).device.2 = [1] := by cbv

end Run

end TensorLoom.Session
